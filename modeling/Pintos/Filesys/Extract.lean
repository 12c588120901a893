import Pintos.Filesys.Fsutil

/-!
# Appending and extracting (`filesys/fsutil.c`)

The files that have been extracted are those that the archive lists so far (`Extracted`). Going through
the archive up to its end puts all of them into the file system. What happens then depends on the sector
there: `fsutil_append` has written its end marker twice to the same sector, the second time moved by one
byte, so that the last byte of the sector is the byte that lies behind the buffer. If it is not zero the
sector is no end of an archive, and no header either.
-/

namespace Pintos

open Lib Filesys List DirEntry

/-! ## The files that have been extracted -/

/-- The root directory, of `cap` slots, has the files in `done` and no others. -/
structure Extracted (fs : Filesys) (done : List Archived) (cap : Nat) : Prop where
  consistent : fs.Consistent
  slots : fs.device.slots rootDirSector = cap
  used : ((Finset.range cap).filter fun i =>
    DirEntry.inUse (fs.device.slot rootDirSector i) = true).card = done.length
  only : ∀ i < cap, DirEntry.inUse (fs.device.slot rootDirSector i) = true → ∃ f ∈ done,
    DirEntry.name (fs.device.slot rootDirSector i) = f.name.1 ∧
    f.At fs.device (DirEntry.inodeSector (fs.device.slot rootDirSector i))
  all : ∀ f ∈ done, ∃ i < cap, fs.device.Lists rootDirSector f.name.1 i

namespace Extracted

variable {fs fs' : Filesys} {done : List Archived} {cap : Nat} {f : Archived}

section

variable (h : Extracted fs done cap)
include h

theorem canAdd (hroom : done.length < cap) (hne : f.name.1 ≠ [])
    (hshort : f.name.1.length ≤ nameMax) (hnew : ∀ g ∈ done, g.name ≠ f.name) :
    CanAdd fs.device rootDirSector f.name.1 := by
  refine ⟨hne, hshort, fun i hi hlists => ?_, ?_⟩
  · rw [h.slots] at hi
    obtain ⟨g, hg, hname, -⟩ := h.only i hi hlists.1
    exact hnew g hg (Subtype.ext (hname.symm.trans hlists.2))
  · have hcard : ((Finset.range cap).filter fun i =>
        inUse (fs.device.slot rootDirSector i) = true).card < (Finset.range cap).card := by
      rw [h.used, Finset.card_range]
      exact hroom
    obtain ⟨i, hi, hfree⟩ := Finset.exists_mem_notMem_of_card_lt_card hcard
    refine ⟨i, h.slots.symm ▸ Finset.mem_range.mp hi, Bool.eq_false_iff.mpr fun huse => ?_⟩
    exact hfree (Finset.mem_filter.mpr ⟨hi, huse⟩)

theorem put (hput : fs.Put fs' f) : Extracted fs' (done ++ [f]) cap := by
  obtain ⟨i, hi, hfree, hlists, hat, hothers⟩ := hput.slot
  rw [h.slots] at hi hothers
  have hne : ∀ {j}, inUse (fs.device.slot rootDirSector j) = true → j ≠ i := by
    rintro j huse rfl
    rw [hfree] at huse
    cases huse
  refine ⟨hput.consistent, hput.slots.trans h.slots, ?_, fun j hj huse => ?_, fun g hg => ?_⟩
  · have hused : ((Finset.range cap).filter fun j =>
        inUse (fs'.device.slot rootDirSector j) = true) =
        insert i ((Finset.range cap).filter fun j =>
          inUse (fs.device.slot rootDirSector j) = true) := by
      ext j
      rw [Finset.mem_insert, Finset.mem_filter, Finset.mem_filter, Finset.mem_range]
      by_cases hj : j = i
      · subst hj
        exact ⟨fun _ => .inl rfl, fun _ => ⟨hi, hlists.1⟩⟩
      · constructor
        · rintro ⟨hlt, huse⟩
          exact .inr ⟨hlt, (hothers j hlt hj).inUse.symm.trans huse⟩
        · rintro (heq | ⟨hlt, huse⟩)
          · exact absurd heq hj
          · exact ⟨hlt, (hothers j hlt hj).inUse.trans huse⟩
    rw [hused, Finset.card_insert_of_notMem, h.used, length_append]
    · rfl
    · intro hin
      exact hne (Finset.mem_filter.mp hin).2 rfl
  · by_cases hji : j = i
    · subst hji
      exact ⟨f, mem_append_right _ (mem_singleton_self f), hlists.2, hat⟩
    · have hsame := hothers j hj hji
      have huse := hsame.inUse.symm.trans huse
      obtain ⟨g, hg, hname, hgat⟩ := h.only j hj huse
      have hnamed : fs.Named (inodeSector (fs.device.slot rootDirSector j)) :=
        ⟨j, h.slots.symm ▸ hj, huse, rfl⟩
      refine ⟨g, mem_append_left _ hg, hsame.name.trans hname, ?_⟩
      rw [hsame.inodeSector]
      unfold Archived.At
      rw [hput.kept (h.consistent.entryFile hnamed) (.inr (.inr (.inl hnamed)))]
      exact hgat
  · rcases mem_append.mp hg with hg | hg
    · obtain ⟨j, hj, hjlists⟩ := h.all g hg
      have hsame := hothers j hj (hne hjlists.1)
      exact ⟨j, hj, hsame.inUse.trans hjlists.1, hsame.name.trans hjlists.2⟩
    · rw [mem_singleton.mp hg]
      exact ⟨i, hi, hlists⟩

theorem has (hdistinct : (done.map Archived.name).Nodup) (hf : f ∈ done) : fs.Has f := by
  rcases h.consistent.lookupRoot f.name with ⟨i, e, hfound, hi, hlists, hsame, -⟩ | hnone
  · rw [h.slots] at hi
    obtain ⟨g, hg, hname, hat⟩ := h.only i hi hlists.1
    have heq : g = f :=
      inj_on_of_nodup_map hdistinct hg hf (Subtype.ext (hname.symm.trans hlists.2))
    subst heq
    refine ⟨inodeSector e, ?_⟩
    rw [h.consistent.stat_eq hfound, Option.map_some, hsame.inodeSector, ← hat]
    rfl
  · obtain ⟨i, hi, hlists⟩ := h.all f hf
    rcases h.consistent.mountedRoot.lookup fs.withRoot_root f.name.1 with
      ⟨j, e, -, -, -, hfound⟩ | ⟨hno, -⟩
    · have hfound : fs.withRoot.lookup Mallocs.all.lookup rootDirSector f.name.1 =
          some (some (e, j)) := hfound
      rw [hnone] at hfound
      cases hfound
    · exact absurd hlists (hno i (h.slots.symm ▸ hi))

theorem stat_none {name : Name} (hno : ∀ f ∈ done, f.name ≠ name) : fs.stat name = some none := by
  rcases h.consistent.lookupRoot name with ⟨i, e, -, hi, hlists, -, -⟩ | hnone
  · rw [h.slots] at hi
    obtain ⟨f, hf, hname, -⟩ := h.only i hi hlists.1
    exact absurd (Subtype.ext (hname.symm.trans hlists.2)) (hno f hf)
  · rw [h.consistent.stat_eq hnone]
    rfl

end

end Extracted

theorem unused_of_empty {fs : Filesys} (hc : fs.Consistent) (hempty : ∀ name, fs.stat name = some none)
    {i : Nat} (hi : i < fs.device.slots rootDirSector) :
    ¬ DirEntry.inUse (fs.device.slot rootDirSector i) = true := by
  intro huse
  -- the name in the slot is one that a program can look up
  have hzero : 0 ∉ name (fs.device.slot rootDirSector i) :=
    fun h => by simpa using mem_takeWhile_imp h
  have hstat := hempty ⟨_, hzero⟩
  rcases hc.mountedRoot.lookup fs.withRoot_root (name (fs.device.slot rootDirSector i)) with
    ⟨j, e, -, -, -, hfound⟩ | ⟨hno, -⟩
  · have hfound := @Consistent.stat_eq fs hc ⟨_, hzero⟩ _ hfound
    rw [hstat] at hfound
    cases hfound
  · exact hno i hi ⟨huse, rfl⟩

theorem extracted_nil {fs : Filesys} (hc : fs.Consistent) (hempty : ∀ name, fs.stat name = some none) :
    Extracted fs [] (fs.device.slots rootDirSector) := by
  refine ⟨hc, rfl, ?_, fun i hi huse => absurd huse (unused_of_empty hc hempty hi), nofun⟩
  rw [Finset.filter_false_of_mem fun i hi => unused_of_empty hc hempty (Finset.mem_range.mp hi)]
  rfl

theorem Extracted.eq_nil {fs : Filesys} {done : List Archived} {cap : Nat} (h : Extracted fs done cap)
    (hempty : ∀ name, fs.stat name = some none) : done = [] := by
  cases done with
  | nil => rfl
  | cons f rest =>
    obtain ⟨i, hi, hlists⟩ := h.all f mem_cons_self
    exact absurd hlists.1 (unused_of_empty h.consistent hempty (h.slots.symm ▸ hi))

/-! ## Going through the archive -/

/-- The free map has the sectors for files of these sizes, one after the other. -/
def roomFor (b : Bitmap) : List Nat → Bool
  | [] => true
  | n :: rest =>
    match takeSectors b n with
    | some b => roomFor b rest
    | none => false

/-! The ways through one round of `fsutil_extract`. -/

section Round

variable {src : Block} {fuel sector : Nat} {fs : Filesys} {header data header₁ : Mem}

section

variable (hread : blockRead src sector header 0 = some header₁)
include hread

theorem extractFrom_error {error : String} (hparse : ustarParseHeader header₁ = .error error) :
    extractFrom src (fuel + 1) fs sector header data = none := by
  show (blockRead src sector header 0).bind _ = _
  rw [hread, Option.bind_some, hparse]

theorem extractFrom_eof (hparse : ustarParseHeader header₁ = .ok ⟨none, .eof, 0⟩) :
    extractFrom src (fuel + 1) fs sector header data = some fs := by
  show (blockRead src sector header 0).bind _ = _
  rw [hread, Option.bind_some, hparse]
  rfl

theorem extractFrom_regular {fileName : List UInt8} {size sector' : Nat} {fs' : Filesys}
    {data' : Mem} (hparse : ustarParseHeader header₁ = .ok ⟨some fileName, .regular, size⟩)
    (hfile : extractFile src fs (sector + 1) (cName fileName) size data = some (fs', sector', data')) :
    extractFrom src (fuel + 1) fs sector header data =
      extractFrom src fuel fs' sector' header₁ data' := by
  show (blockRead src sector header 0).bind _ = _
  rw [hread, Option.bind_some, hparse]
  show (extractFile src fs (sector + 1) (cName fileName) size data).bind _ = _
  rw [hfile]
  rfl

end

end Round

theorem cName_eq (name : Name) : cName name.1 = name := by
  refine Subtype.ext (takeWhile_eq_self_iff.mpr fun b hb => decide_eq_true ?_)
  rintro rfl
  exact name.2 hb

/-- A file that can be extracted. -/
structure Extractable (f : Archived) : Prop where
  short : f.name.1.length ≤ nameMax
  social : stripAntisocialPrefixes f.name.1 = f.name.1
  size : f.size < 2147483648
  tail : ∀ o, f.size ≤ o → f.bytes o = 0

theorem Extractable.nonempty {f : Archived} (h : Extractable f) : f.name.1 ≠ [] := by
  intro hnil
  have hsocial := h.social
  rw [hnil] at hsocial
  revert hsocial
  decide

theorem extractFrom_archive {src : Block} {s e : Nat} {todo : List Archived}
    (harchive : Archive src s todo e) {fs : Filesys} {done : List Archived} {cap fuel : Nat}
    {header data : Mem} (hex : Extracted fs done cap) (htodo : ∀ f ∈ todo, Extractable f)
    (hdistinct : ((done ++ todo).map Archived.name).Nodup) (hcap : done.length + todo.length ≤ cap)
    (hroom : roomFor fs.freeMap (todo.map Archived.size) = true) (hend : e < src.size)
    (hfuel : e < s + fuel) :
    ∃ fs' fuel' header' data', extractFrom src fuel fs s header data =
        extractFrom src (fuel' + 1) fs' e header' data' ∧ Extracted fs' (done ++ todo) cap := by
  induction harchive generalizing fs done fuel header data with
  | nil s =>
    obtain ⟨fuel', rfl⟩ : ∃ fuel', fuel = fuel' + 1 := ⟨fuel - 1, by omega⟩
    refine ⟨fs, fuel', header, data, rfl, ?_⟩
    rw [append_nil]
    exact hex
  | @cons s e f rest hheads hbytes hrest ih =>
    have hle := hrest.le
    obtain ⟨fuel, rfl⟩ : ∃ fuel', fuel = fuel' + 1 := ⟨fuel - 1, by omega⟩
    have hf := htodo f mem_cons_self
    have hmax : nameMax = 14 := rfl
    have hshort := hf.short
    have hread := @blockRead_eq src header s 0 (by omega)
    have hheads' : Heads (header.write 0 512 (src.data s)) f.name.1 .regular f.size :=
      hheads.congr fun i hi => by rw [Mem.write_in (Nat.zero_le i) (by omega), Nat.sub_zero]
    have hparse := hheads'.parse nofun (by omega) f.name.2 hf.social hf.size
    -- there is room for the file
    have hnew : ∀ g ∈ done, g.name ≠ f.name := by
      intro g hg heq
      rw [map_append, nodup_append] at hdistinct
      exact hdistinct.2.2 _ (mem_map_of_mem hg) _ mem_cons_self heq
    have hcan := hex.canAdd (by rw [length_cons] at hcap; omega) hf.nonempty hshort hnew
    obtain ⟨b, htake, hroom⟩ : ∃ b, takeSectors fs.freeMap f.size = some b ∧
        roomFor b (rest.map Archived.size) = true := by
      rw [map_cons, roomFor] at hroom
      split at hroom
      · next b hb => exact ⟨b, hb, hroom⟩
      · cases hroom
    obtain ⟨fs₁, data₁, hput, hfile, hmap⟩ :=
      @extractFile_put src fs (s + 1) f data b hex.consistent hf.size hf.tail htake hcan hbytes
        (by omega)
    obtain ⟨fs', fuel', header', data', hloop, hex'⟩ :=
      @ih fs₁ (done ++ [f]) fuel (header.write 0 512 (src.data s)) data₁ (hex.put hfile)
        (fun g hg => htodo g (mem_cons_of_mem _ hg))
        (by rw [append_assoc]; exact hdistinct)
        (by rw [length_append, length_singleton]; rw [length_cons] at hcap; omega)
        (by rw [hmap]; exact hroom) hend (by omega)
    refine ⟨fs', fuel', header', data', ?_, ?_⟩
    · rw [← hloop]
      exact extractFrom_regular hread hparse (by rw [cName_eq]; exact hput)
    · rw [append_assoc] at hex'
      exact hex'

/-! ## Other contents of the device -/

variable {data header : Mem} {fs fs' : Filesys} {fuel sector : Nat} {src : Block}

theorem copyLoop_read {h : Nat} {size : Nat}
    {r : Filesys × Nat × Mem} (hloop : copyLoop h src fs sector size data = some r) :
    size = 0 ∨ sector + (size + 511) / 512 ≤ src.size := by
  induction hrounds : (size + 511) / 512 generalizing fs sector size data with
  | zero => exact .inl (by omega)
  | succ rounds ih =>
    rw [copyLoop, if_pos (by omega)] at hloop
    obtain ⟨chunk, hchunk⟩ : ∃ chunk, (if 512 < size then 512 else size) = chunk := ⟨_, rfl⟩
    simp only [hchunk] at hloop
    obtain ⟨data₁, hread, hloop⟩ := Option.bind_eq_some_iff.mp hloop
    obtain ⟨⟨n, fs₁⟩, -, hloop⟩ := Option.bind_eq_some_iff.mp hloop
    obtain ⟨hlt, -⟩ := blockRead_some hread
    simp only at hloop
    split at hloop
    · cases hloop
    · have hrest : (size - chunk + 511) / 512 = rounds := by split at hchunk <;> omega
      have hnext := ih hloop hrest
      right
      omega

theorem extractFile_some {size sector' : Nat} {name : Name}
    {data' : Mem} (hc : fs.Consistent) (hsize : size < 2147483648) (hsector : sector ≤ src.size)
    (h : extractFile src fs sector name size data = some (fs', sector', data')) :
    ∃ f, fs.Put fs' f := by
  rcases hc.create name hsize with
    ⟨fs₁, leaked, hcreate, -, -⟩ | ⟨fs₁, k, hcreate, -, hcan, -, htake, -⟩
  · simp [extractFile, hcreate] at h
  · have hroom : sector + (size + 511) / 512 ≤ src.size := by
      obtain ⟨⟨created, fs₂⟩, hcreate₂, hrest⟩ := Option.bind_eq_some_iff.mp h
      cases created with
      | false => cases hrest
      | true =>
        obtain ⟨⟨dst, fs₃⟩, -, hrest⟩ := Option.bind_eq_some_iff.mp hrest
        obtain ⟨dst, -, hrest⟩ := Option.bind_eq_some_iff.mp hrest
        obtain ⟨r, hloop, -⟩ := Option.bind_eq_some_iff.mp hrest
        rcases copyLoop_read hloop with hzero | hle
        · omega
        · exact hle
    -- the file is the one that its sectors hold
    obtain ⟨fs'', data'', hput, hfile, -⟩ :=
      @extractFile_put src fs sector ⟨name, size, fun o => if o < size then src.byteFrom sector o else 0⟩
        data _ hc hsize (fun o ho => if_neg (by simpa using ho)) htake hcan
        (fun o ho => (if_pos ho).symm) hroom
    have heq := h.symm.trans hput
    cases heq
    exact ⟨_, hfile⟩

/-- `fsutil_extract` finds directories only, which it ignores, and then the end of the archive. -/
inductive OnlyDirectories (src : Block) : Nat → Mem → Prop
  | eof {sector : Nat} {header header₁ : Mem} {entry : UstarEntry}
      (hread : blockRead src sector header 0 = some header₁)
      (hparse : ustarParseHeader header₁ = .ok entry) (htype : entry.type = .eof) :
      OnlyDirectories src sector header
  | directory {sector : Nat} {header header₁ : Mem} {entry : UstarEntry}
      (hread : blockRead src sector header 0 = some header₁)
      (hparse : ustarParseHeader header₁ = .ok entry) (htype : entry.type = .directory)
      (hrest : OnlyDirectories src (sector + 1) header₁) : OnlyDirectories src sector header

theorem extractFrom_read
    (h : extractFrom src (fuel + 1) fs sector header data = some fs') :
    ∃ header₁ entry, blockRead src sector header 0 = some header₁ ∧
      ustarParseHeader header₁ = .ok entry ∧
      (entry.type = .eof ∧ fs' = fs ∨
        entry.type = .directory ∧ extractFrom src fuel fs (sector + 1) header₁ data = some fs' ∨
        entry.type = .regular ∧ ∃ fs₁ sector' data' name,
          extractFile src fs (sector + 1) name entry.size data = some (fs₁, sector', data') ∧
          extractFrom src fuel fs₁ sector' header₁ data' = some fs') := by
  obtain ⟨header₁, hread, h⟩ := Option.bind_eq_some_iff.mp h
  cases hparse : ustarParseHeader header₁ with
  | error e =>
    rw [hparse] at h
    cases h
  | ok entry =>
    rw [hparse] at h
    refine ⟨header₁, entry, hread, hparse, ?_⟩
    obtain ⟨fileName, type, size⟩ := entry
    cases type with
    | eof =>
      cases h
      exact .inl ⟨rfl, rfl⟩
    | directory => exact .inr (.inl ⟨rfl, h⟩)
    | regular =>
      obtain ⟨name, -, h⟩ := Option.bind_eq_some_iff.mp h
      obtain ⟨⟨fs₁, sector', data'⟩, hfile, h⟩ := Option.bind_eq_some_iff.mp h
      exact .inr (.inr ⟨rfl, fs₁, sector', data', cName name, hfile, h⟩)

theorem extractFrom_adds {cap : Nat}
    {done : List Archived} (hex : Extracted fs done cap)
    (h : extractFrom src fuel fs sector header data = some fs') :
    ∃ more, Extracted fs' (done ++ more) cap := by
  induction fuel generalizing fs sector header data done with
  | zero => cases h
  | succ fuel ih =>
    obtain ⟨header₁, entry, hread, hparse, ⟨-, rfl⟩ | ⟨-, hrest⟩ | ⟨-, fs₁, s', d', name, hfile, hrest⟩⟩ :=
      extractFrom_read h
    · exact ⟨[], by rw [append_nil]; exact hex⟩
    · exact ih hex hrest
    · obtain ⟨hlt, -⟩ := blockRead_some hread
      obtain ⟨f, hput⟩ := extractFile_some hex.consistent (ustarParseHeader_size hparse) hlt hfile
      obtain ⟨more, hmore⟩ := ih (hex.put hput) hrest
      exact ⟨f :: more, by rw [append_assoc] at hmore; exact hmore⟩

theorem OnlyDirectories.extract
    (h : OnlyDirectories src sector header) (hfuel : src.size < sector + fuel) :
    extractFrom src fuel fs sector header data = some fs := by
  induction h generalizing fuel with
  | @eof sector header header₁ entry hread hparse htype =>
    obtain ⟨hlt, -⟩ := blockRead_some hread
    obtain ⟨fuel, rfl⟩ : ∃ fuel', fuel = fuel' + 1 := ⟨fuel - 1, by omega⟩
    obtain ⟨fileName, type, size⟩ := entry
    subst htype
    show (blockRead src sector header 0).bind _ = _
    rw [hread, Option.bind_some, hparse]
    rfl
  | @directory sector header header₁ entry hread hparse htype hrest ih =>
    obtain ⟨hlt, -⟩ := blockRead_some hread
    obtain ⟨fuel, rfl⟩ : ∃ fuel', fuel = fuel' + 1 := ⟨fuel - 1, by omega⟩
    obtain ⟨fileName, type, size⟩ := entry
    subst htype
    show (blockRead src sector header 0).bind _ = _
    rw [hread, Option.bind_some, hparse]
    exact ih (by omega)

theorem extractFrom_nothing {cap : Nat} (hex : Extracted fs [] cap)
    (h : extractFrom src fuel fs sector header data = some fs')
    (hempty : ∀ name, fs'.stat name = some none) : OnlyDirectories src sector header := by
  induction fuel generalizing sector header with
  | zero => cases h
  | succ fuel ih =>
    obtain ⟨header₁, entry, hread, hparse,
      ⟨htype, -⟩ | ⟨htype, hrest⟩ | ⟨-, fs₁, s', d', name, hfile, hrest⟩⟩ := extractFrom_read h
    · exact .eof hread hparse htype
    · exact .directory hread hparse htype (ih hrest)
    · -- a file that has been put there stays
      obtain ⟨hlt, -⟩ := blockRead_some hread
      obtain ⟨f, hput⟩ := extractFile_some hex.consistent (ustarParseHeader_size hparse) hlt hfile
      obtain ⟨more, hmore⟩ := extractFrom_adds (hex.put hput) hrest
      cases hmore.eq_nil hempty

/-! ## The round trip -/

/-- The files are appended, each with the memory of its buffer, and then extracted; after that the file
system has them and no others. -/
def RoundTrip (src dst : Filesys) (scratch : Block) (files : List (Archived × Mem))
    (header data : Mem) : Prop :=
  ∃ s dst' scratch', appendAll ⟨src, scratch, 0⟩ (files.map fun p => (p.1.name, p.2)) = some s ∧
    fsutilExtract dst s.scratch header data = some (dst', scratch') ∧
    (∀ p ∈ files, dst'.Has p.1) ∧
    ∀ name, (∀ p ∈ files, p.1.name ≠ name) → dst'.stat name = some none

theorem Filesys.Has.extractable {f : Archived} (hf : fs.Has f) (hc : fs.Consistent)
    (hshort : f.name.1.length ≤ nameMax) (hsocial : stripAntisocialPrefixes f.name.1 = f.name.1) :
    Extractable f := by
  obtain ⟨i, e, hfound, hnamed, hsize, -⟩ := hf.found hc
  refine ⟨hshort, hsocial, ?_, fun o ho => ?_⟩
  · rw [← hsize]
    exact hc.mounted.laid.length (.inr (.inr (.inl hnamed)))
  · obtain ⟨k, hstat⟩ := hf
    rw [hc.stat_eq hfound, Option.map_some] at hstat
    have heq := Option.some.inj (Option.some.inj hstat)
    unfold Block.fileAt at heq
    obtain ⟨-, heq⟩ := Prod.mk.inj heq
    obtain ⟨hlength, hbytes⟩ := Prod.mk.inj heq
    rw [hlength] at hbytes
    rw [← hbytes, Mem.write_out (by omega)]

theorem extractFrom_blank {e : Nat}
    (he : e < src.size) (hzeros : ∀ o < 512, src.data e o = 0) :
    extractFrom src (fuel + 1) fs e header data = some fs := by
  have hparse := @ustarParseHeader_blank (header.write 0 512 (src.data e)) fun o ho => by
    rw [Mem.write_in (Nat.zero_le o) (by omega), Nat.sub_zero, hzeros o ho]
  exact extractFrom_eof (blockRead_eq he) hparse

theorem extractFrom_stray {e : Nat} {b : UInt8}
    (he : e < src.size) (hends : src.EndsWith e b) (hb : b ≠ 0) :
    extractFrom src (fuel + 1) fs e header data = none := by
  have hbyte : ∀ o < 512, header.write 0 512 (src.data e) o = if o = 511 then b else 0 := by
    intro o ho
    rw [Mem.write_in (Nat.zero_le o) (by omega), Nat.sub_zero, hends o ho]
  have hparse := @ustarParseHeader_bad (header.write 0 512 (src.data e)) 511 (by omega)
    (by rw [hbyte 511 (by omega), if_pos rfl]; exact hb) 
    (by rw [hbyte 257 (by omega), if_neg (by omega)]; decide)
  exact extractFrom_error (blockRead_eq he) hparse

theorem fsutilExtract_eq_some {src' : Block}
    (h : fsutilExtract fs src header data = some (fs', src')) :
    extractFrom src (src.size + 1) fs 0 header data = some fs' ∧ 1 < src.size := by
  obtain ⟨fs₁, hfrom, h⟩ := Option.bind_eq_some_iff.mp h
  obtain ⟨d₁, hwrite₁, h⟩ := Option.bind_eq_some_iff.mp h
  obtain ⟨d₂, hwrite₂, h⟩ := Option.bind_eq_some_iff.mp h
  obtain ⟨-, hsize₁, -⟩ := blockWrite_some hwrite₁
  obtain ⟨hlt, -⟩ := blockWrite_some hwrite₂
  cases h
  exact ⟨hfrom, by omega⟩

theorem fsutilExtract_of_from {fs fs' : Filesys} {src : Block} {header data : Mem}
    (hfrom : extractFrom src (src.size + 1) fs 0 header data = some fs') (hsize : 1 < src.size) :
    ∃ src', fsutilExtract fs src header data = some (fs', src') := by
  obtain ⟨d₁, hwrite₁, hsize₁, -⟩ :=
    blockWrite_inside (show 0 < src.size by omega) (header.fill 0 512 0) 0
  obtain ⟨d₂, hwrite₂, -, -⟩ :=
    blockWrite_inside (show 1 < d₁.size by omega) (header.fill 0 512 0) 0
  exact ⟨d₂, by simp [fsutilExtract, hfrom, hwrite₁, hwrite₂]⟩

section

variable {src dst : Filesys} {scratch : Block} {files : List (Archived × Mem)}
  (header data : Mem) (hsrc : src.Consistent) (hfiles : ∀ p ∈ files, src.Has p.1)
  (hshort : ∀ p ∈ files, p.1.name.1.length ≤ nameMax)
  (hsocial : ∀ p ∈ files, stripAntisocialPrefixes p.1.name.1 = p.1.name.1)
  (hdistinct : (files.map fun p => p.1.name).Nodup)
  (hscratch : archiveSectors (files.map Prod.fst) < scratch.size)
  (hdst : dst.Consistent) (hempty : ∀ name, dst.stat name = some none)
  (hslots : files.length ≤ dst.device.slots rootDirSector)
  (hroom : roomFor dst.freeMap (files.map fun p => p.1.size) = true)
include hsrc hfiles hshort hsocial hdistinct hscratch hdst hempty hslots hroom

theorem reaches_end :
    ∃ s fs' fuel header' data',
      appendAll ⟨src, scratch, 0⟩ (files.map fun p => (p.1.name, p.2)) = some s ∧
      extractFrom s.scratch (s.scratch.size + 1) dst 0 header data =
        extractFrom s.scratch (fuel + 1) fs' s.sector header' data' ∧
      Extracted fs' (files.map Prod.fst) (dst.device.slots rootDirSector) ∧
      s.scratch.size = scratch.size ∧ s.sector < scratch.size ∧
      (files = [] → s = ⟨src, scratch, 0⟩) ∧
      ∀ p, files.getLast? = some p → s.scratch.EndsWith s.sector (p.2 512) := by
  have hmax : nameMax = 14 := rfl
  have happendable : ∀ p ∈ files, Appendable src p.1 := by
    intro p hp
    have hlen := hshort p hp
    exact ⟨hfiles p hp, by omega, hsocial p hp⟩
  obtain ⟨s, happend, hsize, hsector, harchive, hnil, hlast⟩ :=
    @appendAll_archive ⟨src, scratch, 0⟩ [] files hsrc happendable (.nil 0)
      (by rw [Nat.zero_add]; exact hscratch)
  have hsize : s.scratch.size = scratch.size := hsize
  have hsector : s.sector = archiveSectors (files.map Prod.fst) := hsector.trans (Nat.zero_add _)
  obtain ⟨fs', fuel, header', data', hloop, hex⟩ :=
    @extractFrom_archive s.scratch 0 s.sector (files.map Prod.fst) harchive dst []
      (dst.device.slots rootDirSector) (s.scratch.size + 1) header data (extracted_nil hdst hempty)
      (by
        intro f hf
        obtain ⟨p, hp, rfl⟩ := mem_map.mp hf
        exact (hfiles p hp).extractable hsrc (hshort p hp) (hsocial p hp))
      (by
        rw [nil_append, map_map]
        exact hdistinct)
      (by
        rw [length_map, length_nil, Nat.zero_add]
        exact hslots)
      (by
        rw [map_map]
        exact hroom)
      (by omega) (by omega)
  exact ⟨s, fs', fuel, header', data', happend, hloop, hex, hsize, by omega, hnil, hlast⟩

/-- The files that are appended are extracted exactly if the byte behind the buffer of the last append
is zero. If there are no files, nothing is appended, and the scratch device must have held nothing but
directories. -/
theorem roundTrip_iff :
    RoundTrip src dst scratch files header data ↔
      (∀ p, files.getLast? = some p → p.2 512 = 0) ∧
      (files = [] → OnlyDirectories scratch 0 header ∧ 1 < scratch.size) := by
  obtain ⟨s, fs', fuel, header', data', happend, hloop, hex, hsize, hsector, hnil, hlast⟩ :=
    reaches_end header data hsrc hfiles hshort hsocial hdistinct hscratch hdst hempty hslots hroom
  constructor
  · rintro ⟨s', dst', scratch', happend', hextract, -, hnone⟩
    rw [happend] at happend'
    cases happend'
    obtain ⟨hfrom, hlt⟩ := fsutilExtract_eq_some hextract
    refine ⟨fun p hp => ?_, fun hfiles => ?_⟩
    · by_contra hb
      have hpanic := hloop.trans (extractFrom_stray (by omega) (hlast p hp) hb)
      rw [hfrom] at hpanic
      cases hpanic
    · have hs := hnil hfiles
      subst hs hfiles
      exact ⟨extractFrom_nothing (extracted_nil hdst hempty) hfrom fun name => hnone name nofun, hlt⟩
  · rintro ⟨hb, hdirs⟩
    cases hfs : files.getLast? with
    | none =>
      have hfiles := List.getLast?_eq_none_iff.mp hfs
      obtain ⟨honly, hlt⟩ := hdirs hfiles
      have hs := hnil hfiles
      subst hs hfiles
      obtain ⟨scratch', hextract⟩ :=
        @fsutilExtract_of_from dst dst scratch header data (honly.extract (by omega)) hlt
      exact ⟨_, dst, scratch', happend, hextract, nofun, fun name _ => hempty name⟩
    | some p =>
      have hzeros : ∀ o < 512, s.scratch.data s.sector o = 0 := by
        intro o ho
        rw [hlast p hfs o ho, hb p hfs, ite_self]
      have hlt : 1 < s.scratch.size := by
        cases files with
        | nil => cases hfs
        | cons q rest =>
          have hsum : archiveSectors ((q :: rest).map Prod.fst) =
              1 + q.1.sectors + archiveSectors (rest.map Prod.fst) := rfl
          omega
      obtain ⟨scratch', hextract⟩ :=
        fsutilExtract_of_from (hloop.trans (extractFrom_blank (by omega) hzeros)) hlt
      refine ⟨s, fs', scratch', happend, hextract, fun p hp => ?_, fun name hname => ?_⟩
      · refine hex.has ?_ (mem_map_of_mem hp)
        rw [map_map]
        exact hdistinct
      · refine hex.stat_none fun f hf => ?_
        obtain ⟨p, hp, rfl⟩ := mem_map.mp hf
        exact hname p hp

end

/-- A file of 600 bytes is created and written. -/
def written : List FsOp :=
  [.create nameA 600, .openFile nameA, .write 0 (fun o => UInt8.ofNat o) 0 600]

/-- A file system with one file. -/
def oneFile : Filesys := written.foldl (after Filesys.step) formatted

theorem oneFile_consistent : oneFile.Consistent :=
  History.consistent (show smallDisk.Accepted by decide)
    ⟨formatted, formatted_eq, runs_of_allows (fun _ _ => true) (fun _ _ _ => trivial) (by decide +kernel)⟩

theorem oneFile_has : ∃ f : Archived, f.name = nameA ∧ f.size = 600 ∧ oneFile.Has f := by
  have hfound : ((oneFile.stat nameA).bind id).map (fun r => r.2.1) = some 600 := by decide +kernel
  obtain ⟨⟨k, size, bytes⟩, hstat, hsize⟩ := Option.map_eq_some_iff.mp hfound
  obtain ⟨r, hr, hid⟩ := Option.bind_eq_some_iff.mp hstat
  have hid : r = some (k, size, bytes) := hid
  subst hid
  exact ⟨⟨nameA, size, bytes⟩, rfl, hsize, k, hr⟩

theorem formatted_consistent : formatted.Consistent :=
  init_consistent (by decide) formatted_eq

theorem formatted_empty (name : Name) : formatted.stat name = some none := by
  have hunused : ∀ i < formatted.device.slots rootDirSector,
      inUse (formatted.device.slot rootDirSector i) = false := by decide +kernel
  rcases formatted_consistent.lookupRoot name with ⟨i, e, -, hi, hlists, -, -⟩ | hnone
  · cases (hunused i hi).symm.trans hlists.1
  · rw [formatted_consistent.stat_eq hnone]
    rfl

/-- Three sectors for the file and one for the end. -/
def scratchDisk : Block := ⟨4, fun _ _ => 255⟩

section Sample

variable {f : Archived} (b : Mem)

theorem sample_short (hname : f.name = nameA) : ∀ p ∈ [(f, b)], p.1.name.1.length ≤ nameMax := by
  rw [forall_mem_singleton, hname]
  decide

theorem sample_social (hname : f.name = nameA) :
    ∀ p ∈ [(f, b)], stripAntisocialPrefixes p.1.name.1 = p.1.name.1 := by
  rw [forall_mem_singleton, hname]
  decide

theorem sample_fits (hsize : f.size = 600) :
    archiveSectors ([(f, b)].map Prod.fst) < scratchDisk.size := by
  show 1 + (f.size + 511) / 512 + 0 < 4
  omega

theorem sample_room (hsize : f.size = 600) :
    roomFor formatted.freeMap ([(f, b)].map fun p => p.1.size) = true := by
  rw [map_singleton, hsize]
  decide +kernel

theorem formatted_slots : [(f, b)].length ≤ formatted.device.slots rootDirSector := by
  rw [length_singleton]
  decide +kernel

end Sample

theorem roundTrip_iff_written : ∃ f : Archived, f.name = nameA ∧ f.size = 600 ∧ oneFile.Has f ∧
    RoundTrip oneFile formatted scratchDisk [(f, fun _ => 0)] (fun _ => 0) fun _ => 0 := by
  obtain ⟨f, hname, hsize, hf⟩ := oneFile_has
  refine ⟨f, hname, hsize, hf, ?_⟩
  have hiff := @roundTrip_iff oneFile formatted scratchDisk [(f, fun _ => 0)] (fun _ => 0) (fun _ => 0)
    oneFile_consistent (by rw [forall_mem_singleton]; exact hf) (sample_short _ hname)
    (sample_social _ hname) (nodup_singleton _) (sample_fits _ hsize) formatted_consistent
    formatted_empty (formatted_slots _) (sample_room _ hsize)
  refine hiff.mpr ⟨fun p hp => ?_, nofun⟩
  cases hp
  rfl

/-- With a 1 behind the buffer the archive of the same file ends in a sector that is no header, and
`fsutil_extract` panics. -/
theorem stray_byte_panics : ∃ f : Archived, f.name = nameA ∧ f.size = 600 ∧ oneFile.Has f ∧
    ∃ s, appendAll ⟨oneFile, scratchDisk, 0⟩ [(nameA, fun i => if i = 512 then 1 else 0)] = some s ∧
      fsutilExtract formatted s.scratch (fun _ => 0) (fun _ => 0) = none := by
  obtain ⟨f, hname, hsize, hf⟩ := oneFile_has
  obtain ⟨s, fs', fuel, header, data, happend, hloop, -, hscratch, hsector, -, hlast⟩ :=
    @reaches_end oneFile formatted scratchDisk [(f, fun i => if i = 512 then 1 else 0)] (fun _ => 0)
      (fun _ => 0) oneFile_consistent (by rw [forall_mem_singleton]; exact hf)
      (sample_short _ hname) (sample_social _ hname) (nodup_singleton _) (sample_fits _ hsize)
      formatted_consistent formatted_empty (formatted_slots _) (sample_room _ hsize)
  have hpanic : extractFrom s.scratch (s.scratch.size + 1) formatted 0 (fun _ => 0) (fun _ => 0) =
      none := by
    have hstray : s.scratch.EndsWith s.sector 1 := hlast (f, _) rfl
    exact hloop.trans (extractFrom_stray (by omega) hstray (by decide))
  refine ⟨f, hname, hsize, hf, s, ?_, ?_⟩
  · rw [← happend, map_singleton, hname]
  · simp [fsutilExtract, hpanic]

end Pintos
