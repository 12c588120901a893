import Pintos.Userprog.Load

/-!
# The image of an executable

What `load` registers, as a list of entries in the order of the calls of `supdir_set_page`:
`loadPhdrs_eq` and `loadSegment_eq` connect it to the loops.

The headers are validated one at a time, and only their offsets are compared with the length of the
file. So two segments may share pages, a segment may lie on the stack page, and a segment may end
behind the end of the file.
-/

namespace Pintos

open Lib List Phdr

/-! ## What is registered -/

/-- `supdir_set_page` with the fields of an entry. -/
def Supdir.register (s : Supdir) (e : Spte) : Supdir :=
  supdirSetPage s e.vaddr e.sector e.readBytes e.location e.writable

/-- What the loop of `load_segment` registers for page `i`. -/
def segmentEntry (inode : Inode) (writable : Bool) (ofs upage readBytes i : Nat) : Spte :=
  let left := readBytes - 4096 * i
  if 0 < left then
    ⟨writable, .file, byteToSector inode (offT (ofs + 4096 * i)), min left 4096, upage + 4096 * i⟩
  else ⟨writable, .zero, 0, 0, upage + 4096 * i⟩

namespace Phdr

/-- `read_bytes` in `load`. -/
def readBytes (ph : Phdr) : Nat :=
  if 0 < ph.filesz then ph.vaddr.toNat % 4096 + ph.filesz.toNat else 0

/-- The first page. -/
def firstPage (ph : Phdr) : Nat := ph.vaddr.toNat / 4096

/-- The page behind the last one. -/
def endPage (ph : Phdr) : Nat := (ph.vaddr.toNat + ph.memsz.toNat + 4095) / 4096

/-- What `load_segment` registers for a header. -/
def entries (inode : Inode) (ph : Phdr) : List Spte :=
  (List.range (ph.endPage - ph.firstPage)).map
    (segmentEntry inode ph.writable (ph.offset.toNat / 4096 * 4096) (ph.firstPage * 4096)
      ph.readBytes)

/-- The page ranges of two segments have no page in common. -/
def apart (ph ph' : Phdr) : Prop := ph.endPage ≤ ph'.firstPage ∨ ph'.endPage ≤ ph.firstPage

instance (ph ph' : Phdr) : Decidable (ph.apart ph') := inferInstanceAs (Decidable (_ ∨ _))

end Phdr

/-- The `PT_LOAD` headers. -/
def loadable (phs : List Phdr) : List Phdr := phs.filter fun ph => ph.type = .load

/-- What `setup_stack` registers. -/
def stackEntry : Spte := ⟨true, .zero, 0, 0, 0xbffff000⟩

/-- The calls of `supdir_set_page` in `load`. -/
def loadCalls (inode : Inode) (phs : List Phdr) : List Spte :=
  (loadable phs).flatMap (Phdr.entries inode) ++ [stackEntry]

/-! ## The loops -/

theorem pageReadBytes_eq (rb : Nat) : (if rb < 4096 then rb else 4096) = min rb 4096 := by
  rw [Nat.min_def]
  split <;> split <;> omega

theorem segmentEntry_succ (inode : Inode) (w : Bool) (ofs upage rb i : Nat) :
    segmentEntry inode w ofs upage rb (i + 1) =
      segmentEntry inode w (ofs + 4096) (upage + 4096) (rb - min rb 4096) i := by
  have hleft : rb - min rb 4096 - 4096 * i = rb - 4096 * (i + 1) := by omega
  have hnext : ∀ a, a + 4096 * (i + 1) = a + 4096 + 4096 * i := by
    intro a
    omega
  simp only [segmentEntry, hleft, hnext]

theorem loadSegmentPages_eq (inode : Inode) (w : Bool) (n ofs upage rb : Nat) (s : Supdir) :
    loadSegmentPages inode w n ofs upage rb s =
      ((List.range n).map (segmentEntry inode w ofs upage rb)).foldl Supdir.register s := by
  induction n generalizing ofs upage rb s with
  | zero => rfl
  | succ n ih =>
    have hrest : segmentEntry inode w ofs upage rb ∘ Nat.succ =
        segmentEntry inode w (ofs + 4096) (upage + 4096) (rb - min rb 4096) := by
      funext i
      rw [Function.comp_apply, Nat.succ_eq_add_one, segmentEntry_succ]
    rw [range_succ_eq_map, map_cons, foldl_cons, map_map, hrest, ← ih]
    simp only [loadSegmentPages, pageReadBytes_eq]
    congr 1
    -- the page at hand
    by_cases hrb : 0 < rb
    · have hmin : 0 < min rb 4096 := by omega
      simp only [segmentEntry, Supdir.register, Nat.mul_zero, Nat.add_zero, Nat.sub_zero,
        if_pos hrb, if_pos hmin]
    · have hmin : ¬ 0 < min rb 4096 := by omega
      simp only [segmentEntry, Supdir.register, Nat.mul_zero, Nat.add_zero, Nat.sub_zero,
        if_neg hrb, if_neg hmin]

variable {calls : List Spte} {e : Spte} {inode : Inode} {len va : Nat} {ph : Phdr} {s : Supdir}

theorem loadSegment_eq (h : validateSegment ph inode.length = true)
    (s : Supdir) :
    loadSegment inode (ph.offset.toNat / 4096 * 4096) (ph.vaddr.toNat / 4096 * 4096)
      (if 0 < ph.filesz then ph.vaddr.toNat % 4096 + ph.filesz.toNat else 0)
      (roundUp (ph.vaddr.toNat % 4096 + ph.memsz.toNat) -
        if 0 < ph.filesz then ph.vaddr.toNat % 4096 + ph.filesz.toNat else 0) ph.writable s =
      (ph.entries inode).foldl Supdir.register s := by
  obtain ⟨-, hsize, -⟩ := validateSegment_bounds h
  have hread : ph.readBytes ≤ roundUp (ph.vaddr.toNat % 4096 + ph.memsz.toNat) := by
    unfold readBytes roundUp
    split <;> omega
  have hcount : roundUp (ph.vaddr.toNat % 4096 + ph.memsz.toNat) / 4096 =
      ph.endPage - ph.firstPage := by
    unfold roundUp endPage firstPage
    omega
  show loadSegmentPages inode ph.writable ((ph.readBytes +
    (roundUp (ph.vaddr.toNat % 4096 + ph.memsz.toNat) - ph.readBytes)) / 4096) _ _ ph.readBytes s = _
  rw [Nat.add_sub_cancel' hread, hcount, loadSegmentPages_eq]
  rfl

theorem loadPhdrs_eq {phs : List Phdr} {s' : Supdir}
    (h : loadPhdrs inode phs s = (true, s')) :
    (∀ ph ∈ loadable phs, validateSegment ph inode.length = true) ∧
      s' = ((loadable phs).flatMap (Phdr.entries inode)).foldl Supdir.register s := by
  induction phs generalizing s with
  | nil =>
    cases h
    exact ⟨nofun, rfl⟩
  | cons ph phs ih =>
    unfold loadPhdrs at h
    split at h
    · next htype =>
      have hskip : loadable (ph :: phs) = loadable phs := by
        simp [loadable, htype]
      rw [hskip]
      exact ih h
    · next htype =>
      have hkeep : loadable (ph :: phs) = ph :: loadable phs := by
        simp [loadable, htype]
      split at h
      · next hvalid =>
        simp only at h
        rw [loadSegment_eq hvalid] at h
        obtain ⟨hall, hs'⟩ := ih h
        rw [hkeep]
        refine ⟨fun ph' hmem => ?_, ?_⟩
        · rcases mem_cons.mp hmem with rfl | hmem
          · exact hvalid
          · exact hall ph' hmem
        · rw [hs', flatMap_cons, foldl_append]
      · cases h
    · cases h

/-! ## Which entries are replaced -/

theorem lookup_register (s : Supdir) (e : Spte) (va : Nat) :
    lookupSupPage (s.register e) va = if va = e.vaddr then some e else lookupSupPage s va :=
  lookup_setPage ..

theorem lookup_foldl_of_notMem
    (h : va ∉ calls.map Spte.vaddr) :
    lookupSupPage (calls.foldl Supdir.register s) va = lookupSupPage s va := by
  induction calls generalizing s with
  | nil => rfl
  | cons e calls ih =>
    rw [map_cons, mem_cons, not_or] at h
    rw [foldl_cons, ih h.2, lookup_register, if_neg h.1]

theorem lookup_foldl_some
    (h : lookupSupPage (calls.foldl Supdir.register s) va = some e) :
    e ∈ calls ∨ lookupSupPage s va = some e := by
  induction calls generalizing s with
  | nil => exact .inr h
  | cons e₀ calls ih =>
    rcases ih h with hmem | hold
    · exact .inl (mem_cons_of_mem _ hmem)
    · rw [lookup_register] at hold
      split at hold
      · cases hold
        exact .inl mem_cons_self
      · exact .inr hold

/-- No call replaces an entry if and only if the calls are for different new pages. -/
theorem fresh_calls_iff :
    (∀ before e after, calls = before ++ e :: after →
      lookupSupPage (before.foldl Supdir.register s) e.vaddr = none) ↔
    (calls.map Spte.vaddr).Nodup ∧ ∀ e ∈ calls, lookupSupPage s e.vaddr = none := by
  induction calls generalizing s with
  | nil => simp
  | cons e calls ih =>
    have hfirst : (∀ before e' after, e :: calls = before ++ e' :: after →
          lookupSupPage (before.foldl Supdir.register s) e'.vaddr = none) ↔
        lookupSupPage s e.vaddr = none ∧ ∀ before e' after, calls = before ++ e' :: after →
          lookupSupPage (before.foldl Supdir.register (s.register e)) e'.vaddr = none := by
      constructor
      · intro h
        exact ⟨h [] e calls rfl, fun before e' after he => h (e :: before) e' after (by rw [he]; rfl)⟩
      · rintro ⟨hnow, hlater⟩ before e' after he
        cases before with
        | nil =>
          cases he
          exact hnow
        | cons e₀ before =>
          cases he
          exact hlater before e' after rfl
    rw [hfirst, ih, map_cons, nodup_cons]
    simp only [lookup_register, mem_map, mem_cons, forall_eq_or_imp]
    constructor
    · rintro ⟨hnow, hnodup, hlater⟩
      refine ⟨⟨?_, hnodup⟩, hnow, fun e' he' => ?_⟩
      · rintro ⟨e', he', heq⟩
        have hnone := hlater e' he'
        rw [if_pos heq] at hnone
        cases hnone
      · have hnone := hlater e' he'
        split at hnone
        · cases hnone
        · exact hnone
    · rintro ⟨⟨hne, hnodup⟩, hnow, hlater⟩
      refine ⟨hnow, hnodup, fun e' he' => ?_⟩
      rw [if_neg fun heq => hne ⟨e', he', heq⟩]
      exact hlater e' he'

theorem lookup_calls (h : (calls.map Spte.vaddr).Nodup)
    (he : e ∈ calls) : lookupSupPage (calls.foldl Supdir.register s) e.vaddr = some e := by
  induction calls generalizing s with
  | nil => cases he
  | cons e₀ calls ih =>
    rw [map_cons, nodup_cons] at h
    rw [foldl_cons]
    rcases mem_cons.mp he with rfl | he
    · rw [lookup_foldl_of_notMem h.1, lookup_register, if_pos rfl]
    · exact ih h.2 he

/-! ## Page ranges -/

theorem segmentEntry_vaddr (inode : Inode) (w : Bool) (ofs upage rb i : Nat) :
    (segmentEntry inode w ofs upage rb i).vaddr = upage + 4096 * i := by
  unfold segmentEntry
  simp only
  split <;> rfl

theorem entries_vaddr (inode : Inode) (ph : Phdr) :
    (ph.entries inode).map Spte.vaddr =
      (List.range (ph.endPage - ph.firstPage)).map fun i => (ph.firstPage + i) * 4096 := by
  unfold entries
  rw [map_map]
  refine map_congr_left fun i _ => ?_
  rw [Function.comp_apply, segmentEntry_vaddr]
  omega

theorem mem_entries_vaddr :
    va ∈ (ph.entries inode).map Spte.vaddr ↔
      ∃ k, ph.firstPage ≤ k ∧ k < ph.endPage ∧ va = k * 4096 := by
  rw [entries_vaddr, mem_map]
  constructor
  · rintro ⟨i, hi, rfl⟩
    have hlt := mem_range.mp hi
    exact ⟨ph.firstPage + i, by omega, by omega, rfl⟩
  · rintro ⟨k, hlo, hhi, rfl⟩
    refine ⟨k - ph.firstPage, mem_range.mpr (by omega), ?_⟩
    show (ph.firstPage + (k - ph.firstPage)) * 4096 = k * 4096
    rw [Nat.add_sub_cancel' hlo]

theorem entries_nodup (inode : Inode) (ph : Phdr) : ((ph.entries inode).map Spte.vaddr).Nodup := by
  rw [entries_vaddr]
  refine nodup_range.map fun i j hij => ?_
  have hmul : (ph.firstPage + i) * 4096 = (ph.firstPage + j) * 4096 := hij
  omega

theorem firstPage_lt_endPage (h : validateSegment ph len = true) :
    ph.firstPage < ph.endPage := by
  simp only [validateSegment, Bool.and_eq_true, bne_iff_ne, ne_eq] at h
  have hne : ph.memsz.toNat ≠ 0 := fun he => h.1.1.1.1.2 (UInt32.toNat_inj.mp he)
  unfold firstPage endPage
  omega

theorem disjoint_entries_iff {ph' : Phdr} (h : ph.firstPage < ph.endPage)
    (h' : ph'.firstPage < ph'.endPage) :
    List.Disjoint ((ph.entries inode).map Spte.vaddr) ((ph'.entries inode).map Spte.vaddr) ↔
      ph.apart ph' := by
  constructor
  · intro hdisj
    by_contra hover
    unfold apart at hover
    -- the later of the two first pages is in both ranges
    have hmem : ∀ q : Phdr, q = ph ∨ q = ph' → max ph.firstPage ph'.firstPage * 4096 ∈
        (q.entries inode).map Spte.vaddr := by
      rintro q (rfl | rfl)
      · exact mem_entries_vaddr.mpr ⟨_, by omega, by omega, rfl⟩
      · exact mem_entries_vaddr.mpr ⟨_, by omega, by omega, rfl⟩
    exact hdisj (hmem ph (.inl rfl)) (hmem ph' (.inr rfl))
  · intro hapart va hva hva'
    obtain ⟨k, hlo, hhi, rfl⟩ := mem_entries_vaddr.mp hva
    obtain ⟨k', hlo', hhi', hk⟩ := mem_entries_vaddr.mp hva'
    have hkk : k = k' := by omega
    unfold apart at hapart
    omega

/-- The page ranges of the segments are apart from each other and from the stack page. -/
def SegmentsApart (phs : List Phdr) : Prop :=
  (loadable phs).Pairwise Phdr.apart ∧ ∀ ph ∈ loadable phs, ph.endPage ≤ 0xbffff

instance (phs : List Phdr) : Decidable (SegmentsApart phs) := inferInstanceAs (Decidable (_ ∧ _))

theorem loadCalls_nodup_iff {phs : List Phdr}
    (hvalid : ∀ ph ∈ loadable phs, validateSegment ph inode.length = true) :
    ((loadCalls inode phs).map Spte.vaddr).Nodup ↔ SegmentsApart phs := by
  unfold loadCalls SegmentsApart
  rw [map_append, map_flatMap, nodup_append, nodup_flatMap]
  have hpair : (loadable phs).Pairwise
        (Function.onFun List.Disjoint fun ph => (ph.entries inode).map Spte.vaddr) ↔
      (loadable phs).Pairwise apart := by
    refine List.Pairwise.iff_of_mem fun hph hph' => ?_
    exact disjoint_entries_iff (firstPage_lt_endPage (hvalid _ hph))
      (firstPage_lt_endPage (hvalid _ hph'))
  rw [hpair]
  constructor
  · rintro ⟨⟨-, hapart⟩, -, hstack⟩
    refine ⟨hapart, fun ph hph => ?_⟩
    by_contra hover
    obtain ⟨-, -, hend⟩ := validateSegment_bounds (hvalid ph hph)
    have hfirst := firstPage_lt_endPage (hvalid ph hph)
    have hlast : ph.endPage ≤ 0xc0000 := by
      unfold endPage
      unfold roundUp physBase at hend
      omega
    have hmem : 0xbffff * 4096 ∈ (ph.entries inode).map Spte.vaddr :=
      mem_entries_vaddr.mpr ⟨0xbffff, by omega, by omega, rfl⟩
    exact hstack _ (mem_flatMap.mpr ⟨ph, hph, hmem⟩) _ mem_cons_self rfl
  · rintro ⟨hapart, hstack⟩
    refine ⟨⟨fun ph _ => entries_nodup inode ph, hapart⟩, nodup_singleton _, ?_⟩
    intro va hva vb hvb heq
    obtain ⟨ph, hph, hmem⟩ := mem_flatMap.mp hva
    obtain ⟨k, -, hk, rfl⟩ := mem_entries_vaddr.mp hmem
    have hvb : vb = 0xbffff000 := mem_singleton.mp hvb
    have hend := hstack ph hph
    omega

/-- **When segments do not overwrite each other.** For an executable that `load` accepts: no call of
`supdir_set_page` finds an entry of an earlier call, and all entries are in the table in the end, if
and only if the segments are apart from each other and from the stack page. -/
theorem segments_kept_iff {inode : Inode} {phs : List Phdr} {s : Supdir}
    (h : loadPhdrs inode phs supdirCreate = (true, s)) :
    ((∀ before e after, loadCalls inode phs = before ++ e :: after →
        lookupSupPage (before.foldl Supdir.register supdirCreate) e.vaddr = none) ∧
      ∀ e ∈ loadCalls inode phs, lookupSupPage (s.register stackEntry) e.vaddr = some e) ↔
    SegmentsApart phs := by
  obtain ⟨hvalid, hs⟩ := loadPhdrs_eq h
  have hfinal : s.register stackEntry =
      (loadCalls inode phs).foldl Supdir.register supdirCreate := by
    rw [loadCalls, foldl_append, ← hs]
    rfl
  rw [hfinal, fresh_calls_iff, ← loadCalls_nodup_iff hvalid]
  constructor
  · rintro ⟨⟨hnodup, -⟩, -⟩
    exact hnodup
  · intro hnodup
    exact ⟨⟨hnodup, fun e _ => lookup_create _⟩, fun e he => lookup_calls hnodup he⟩

/-- A page of code at 0x8048000 and a page of data behind it. -/
def textAndData : List Phdr :=
  [⟨.load, 0, 0x8048000, 4096, 4096, false⟩, ⟨.load, 4096, 0x8049000, 4096, 4096, true⟩]

theorem segments_kept_iff_textAndData :
    (∀ before e after, loadCalls ⟨10, 8192⟩ textAndData = before ++ e :: after →
      lookupSupPage (before.foldl Supdir.register supdirCreate) e.vaddr = none) ∧
    ∀ e ∈ loadCalls ⟨10, 8192⟩ textAndData, lookupSupPage
      ((loadPhdrs ⟨10, 8192⟩ textAndData supdirCreate).2.register stackEntry) e.vaddr = some e :=
  (segments_kept_iff (Prod.ext (show (loadPhdrs ⟨10, 8192⟩ textAndData supdirCreate).1 = true by
    decide +kernel) rfl)).mpr (by decide +kernel)

/-- The data lies on the page of code, and on the stack page. -/
def overlapping : List Phdr :=
  [⟨.load, 0, 0x8048000, 4096, 4096, false⟩, ⟨.load, 4096, 0x8048000, 4096, 4096, true⟩,
    ⟨.load, 4096, 0xbffff000, 4095, 4095, true⟩]

/-- `load` accepts the executable. The second call replaces the entry of the page of code, and the
last one, of `setup_stack`, that of a page of data. -/
theorem segments_overwritten :
    (loadPhdrs ⟨10, 8192⟩ overlapping supdirCreate).1 = true ∧
    loadCalls ⟨10, 8192⟩ overlapping =
      [⟨false, .file, 10, 4096, 0x8048000⟩, ⟨true, .file, 18, 4096, 0x8048000⟩,
        ⟨true, .file, 18, 4095, 0xbffff000⟩, stackEntry] ∧
    lookupSupPage ((loadPhdrs ⟨10, 8192⟩ overlapping supdirCreate).2.register stackEntry)
      0x8048000 = some ⟨true, .file, 18, 4096, 0x8048000⟩ ∧
    lookupSupPage ((loadPhdrs ⟨10, 8192⟩ overlapping supdirCreate).2.register stackEntry)
      0xbffff000 = some stackEntry :=
  ⟨by decide +kernel, by decide +kernel, by decide +kernel, by decide +kernel⟩

/-! ## Which sectors are read -/

/-- The sectors that `load_page` reads for `e` are sectors of the file. -/
def Inode.holds (inode : Inode) (e : Spte) : Prop :=
  inode.start ≤ e.sector ∧
    e.sector + (e.readBytes + 511) / 512 ≤ inode.start + inode.sectors

theorem validateSegment_offset (h : validateSegment ph len = true) :
    ph.offset.toNat % 4096 = ph.vaddr.toNat % 4096 ∧ ph.offset.toNat ≤ len := by
  simp only [validateSegment, Bool.and_eq_true, decide_eq_true_eq, beq_iff_eq] at h
  obtain ⟨⟨⟨⟨⟨⟨⟨hpage, hofs⟩, -⟩, -⟩, -⟩, -⟩, -⟩, -⟩ := h
  refine ⟨?_, hofs⟩
  have hnat := congrArg UInt32.toNat hpage
  simpa only [UInt32.toNat_mod, UInt32.reduceToNat] using hnat

theorem byteToSector_out {ofs : Nat} (hlen : inode.length < 2147483648)
    (hext : inode.start + inode.sectors ≤ 4294967295) (hlo : inode.length ≤ ofs)
    (hhi : ofs ≤ 512 * inode.sectors) (hal : ofs % 4096 = 0) :
    ¬ (inode.start ≤ byteToSector inode (offT ofs) ∧
      byteToSector inode (offT ofs) + 1 ≤ inode.start + inode.sectors) := by
  have hsectors : inode.sectors = (inode.length + 511) / 512 := rfl
  by_cases hwrap : ofs < 2147483648
  · have hsector : byteToSector inode (offT ofs) = 4294967295 := by
      rw [offT_eq hwrap]
      exact if_neg (by omega)
    omega
  · -- the counter has become negative
    have hofs : ofs = 2147483648 := by omega
    subst hofs
    have hsector : byteToSector inode (offT 2147483648) =
        ((inode.start + (-4194304)) % 4294967296 : Int).toNat := by
      unfold byteToSector
      rw [if_pos]
      · rfl
      · show (-2147483648 : Int) < _
        omega
    omega

theorem readFileSectors_isSome {d : Block} {fuel sector rb : Nat} {m : Mem} {frame : Nat}
    (h : sector + (rb + 511) / 512 ≤ d.size) :
    (readFileSectors d fuel sector rb m frame).isSome = true := by
  induction fuel generalizing sector rb m frame with
  | zero => rfl
  | succ fuel ih =>
    unfold readFileSectors
    split
    · next hpos =>
      rw [blockRead, if_pos (by omega)]
      exact ih (by omega)
    · rfl

theorem mem_entries :
    e ∈ ph.entries inode ↔ ∃ i < ph.endPage - ph.firstPage,
      e = segmentEntry inode ph.writable (ph.offset.toNat / 4096 * 4096) (ph.firstPage * 4096)
        ph.readBytes i := by
  unfold entries
  simp only [mem_map, mem_range, @eq_comm _ e]

theorem readBytes_eq_zero (h : ph.filesz = 0) : ph.readBytes = 0 := by
  unfold readBytes
  rw [h]
  rfl

theorem readBytes_end (h : validateSegment ph len = true)
    (hpos : ph.filesz ≠ 0) :
    ph.offset.toNat / 4096 * 4096 + ph.readBytes = ph.offset.toNat + ph.filesz.toNat ∧
      ph.readBytes ≤ 4096 * (ph.endPage - ph.firstPage) := by
  obtain ⟨hpage, -⟩ := validateSegment_offset h
  obtain ⟨-, hsize, -⟩ := validateSegment_bounds h
  have hne : ph.filesz.toNat ≠ 0 := fun he => hpos (UInt32.toNat_inj.mp he)
  have hlt : 0 < ph.filesz := UInt32.lt_iff_toNat_lt.mpr (Nat.pos_of_ne_zero hne)
  have hread : ph.readBytes = ph.vaddr.toNat % 4096 + ph.filesz.toNat := if_pos hlt
  rw [hread]
  unfold endPage firstPage
  omega

theorem holds_segmentEntry (hlen : inode.length < 2147483648)
    (hext : inode.start + inode.sectors ≤ 4294967295)
    (hv : validateSegment ph inode.length = true)
    (hfits : ph.filesz = 0 ∨ ph.offset.toNat + ph.filesz.toNat ≤ 512 * inode.sectors)
    (he : e ∈ ph.entries inode) (hloc : e.location = .file) : inode.holds e := by
  have hsectors : inode.sectors = (inode.length + 511) / 512 := rfl
  obtain ⟨i, hi, rfl⟩ := mem_entries.mp he
  have hleft : 0 < ph.readBytes - 4096 * i := by
    by_contra hnone
    simp only [segmentEntry, if_neg hnone] at hloc
    cases hloc
  have hpos : ph.filesz ≠ 0 := by
    intro hzero
    rw [readBytes_eq_zero hzero] at hleft
    omega
  have hfits := hfits.resolve_left hpos
  obtain ⟨hend, -⟩ := readBytes_end hv hpos
  simp only [segmentEntry, if_pos hleft, Inode.holds]
  rw [offT_eq (by omega), byteToSector_in (by omega) (by omega)]
  omega

theorem fillFrame_isSome {d : Block} (hi : inode.OnDevice d)
    (he : e ∈ ph.entries inode) (hholds : e.location = .file → inode.holds e) (swapDev : Block)
    (table : Bitmap) (m : Mem) (frame : Nat) :
    (fillFrame d swapDev table e m frame).isSome = true := by
  unfold fillFrame
  simp only
  split
  · next hloc =>
    obtain ⟨-, hin⟩ := hholds hloc
    have hread : (readFileSectors d e.readBytes e.sector e.readBytes m frame).isSome = true :=
      readFileSectors_isSome (le_trans hin hi.extent)
    obtain ⟨r, hr⟩ := Option.isSome_iff_exists.mp hread
    rw [hr]
    rfl
  · next hloc =>
    obtain ⟨i, -, rfl⟩ := mem_entries.mp he
    unfold segmentEntry at hloc
    simp only at hloc
    split at hloc <;> cases hloc
  · rfl

/-- **When lazy loading reads only the file.** For a header that `validate_segment` accepts: the
sectors of all its `FILE_SYS` entries are sectors of the file if and only if the segment has no
bytes in the file or ends in the file's last sector. Then `load_page` reads them all. -/
theorem segment_in_file_iff {inode : Inode} {ph : Phdr} {d : Block} (hd : d.size ≤ 4294967295)
    (hi : inode.OnDevice d) (hv : validateSegment ph inode.length = true) :
    ((∀ e ∈ ph.entries inode, e.location = .file → inode.holds e) ↔
      ph.filesz = 0 ∨ ph.offset.toNat + ph.filesz.toNat ≤ 512 * inode.sectors) ∧
    ((∀ e ∈ ph.entries inode, e.location = .file → inode.holds e) →
      ∀ e ∈ ph.entries inode, ∀ swapDev table m frame,
        (fillFrame d swapDev table e m frame).isSome = true) := by
  have hlen := hi.length
  have hext := hi.extent
  have hsectors : inode.sectors = (inode.length + 511) / 512 := rfl
  refine ⟨⟨fun hall => ?_,
    fun hcond e he hloc => holds_segmentEntry hlen (le_trans hext hd) hv hcond he hloc⟩,
    fun hall e he swapDev table m frame => fillFrame_isSome hi he (hall e he) swapDev table m frame⟩
  by_contra hbad
  rw [not_or, Nat.not_le] at hbad
  obtain ⟨-, hofs⟩ := validateSegment_offset hv
  obtain ⟨hend, hpages⟩ := readBytes_end hv hbad.1
  -- the page in which the file's last sector ends, or the one behind it
  obtain ⟨i, hi⟩ : ∃ i, i = (512 * inode.sectors - ph.offset.toNat / 4096 * 4096) / 4096 :=
    ⟨_, rfl⟩
  have hleft : 0 < ph.readBytes - 4096 * i := by omega
  have hholds := hall _ (mem_entries.mpr ⟨i, by omega, rfl⟩)
  simp only [segmentEntry, if_pos hleft, Inode.holds, forall_const] at hholds
  by_cases hin : ph.offset.toNat / 4096 * 4096 + 4096 * i < inode.length
  · rw [offT_eq (by omega), byteToSector_in hin (by omega)] at hholds
    omega
  · refine byteToSector_out hlen (by omega) (Nat.not_lt.mp hin) (by omega) (by omega)
      ⟨hholds.1, le_trans ?_ hholds.2⟩
    omega

/-- The sectors of a page of code in a file of two pages, in the sectors 10 to 25. -/
theorem segment_in_file_iff_text :
    (⟨10, 8192⟩ : Inode).holds ⟨false, .file, 10, 4096, 0x8048000⟩ := by
  have hall := (@segment_in_file_iff ⟨10, 8192⟩ ⟨.load, 0, 0x8048000, 4096, 4096, false⟩
    ⟨32, fun _ _ => 0⟩ (by decide) ⟨by decide, by decide⟩ (by decide +kernel)).1.mpr
    (.inr (by decide +kernel))
  exact hall _ (by decide +kernel) rfl

/-- A file of one sector whose header asks for two pages: `validate_segment` accepts it; for the
first page the seven sectors behind the file are read too, and for the second one the sector -1. -/
theorem segment_beyond_file :
    validateSegment ⟨.load, 0, 0x8048000, 8192, 8192, false⟩ 512 = true ∧
    Phdr.entries ⟨10, 512⟩ ⟨.load, 0, 0x8048000, 8192, 8192, false⟩ =
      [⟨false, .file, 10, 4096, 0x8048000⟩, ⟨false, .file, 4294967295, 4096, 0x8049000⟩] ∧
    ¬ (⟨10, 512⟩ : Inode).holds ⟨false, .file, 10, 4096, 0x8048000⟩ ∧
    ∀ (d swapDev : Block) table m frame, d.size ≤ 4294967295 →
      fillFrame d swapDev table ⟨false, .file, 4294967295, 4096, 0x8049000⟩ m frame = none := by
  refine ⟨by decide +kernel, by decide +kernel, by simp [Inode.holds, Inode.sectors], ?_⟩
  intro d swapDev table m frame hd
  have hread : readFileSectors d 4096 4294967295 4096 m frame = none := by
    unfold readFileSectors
    rw [if_pos (by decide), blockRead, if_neg (by omega)]
  simp only [fillFrame, hread]

end Pintos
