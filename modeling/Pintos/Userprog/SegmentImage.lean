import Pintos.Userprog.Segments
import Pintos.Vm.Paging

/-!
# What lazy loading makes of a segment

`load` and `load_segment` compute with 32-bit counters and assert that they come out even; the pages
they register are read by `load_page` when they are needed. `loadHeader` is the `PT_LOAD` case of
`load` with these counters: `none` if an assertion fails or an unsigned subtraction underflows.
-/

namespace Pintos

open Lib List

/-! ## The counters -/

/-- A subtraction of `uint32_t` that must not underflow. -/
def sub32 (x y : Nat) : Option Nat := if y ≤ x then some (x - y) else none

/-- `ROUND_UP (x, PGSIZE)` of a `uint32_t`. -/
def roundUp32 (x : Nat) : Nat := (x + 4095) % 4294967296 / 4096 * 4096

/-- `page_read_bytes` in the loop of `load_segment`. -/
def pageReadBytes (readBytes : Nat) : Nat := if readBytes < 4096 then readBytes else 4096

/-- The `while` loop of `load_segment`. -/
def segmentLoop (inode : Inode) (writable : Bool) (ofs upage readBytes zeroBytes : Nat) (s : Supdir) :
    Option Supdir :=
  if h : 0 < readBytes ∨ 0 < zeroBytes then
    if h' : pageReadBytes readBytes ≤ 4096 ∧ pageReadBytes readBytes ≤ readBytes ∧
        4096 - pageReadBytes readBytes ≤ zeroBytes then
      segmentLoop inode writable (ofs + 4096) (upage + 4096) (readBytes - pageReadBytes readBytes)
        (zeroBytes - (4096 - pageReadBytes readBytes))
        (if 0 < pageReadBytes readBytes then
          supdirSetPage s upage (byteToSector inode (offT ofs)) (pageReadBytes readBytes) .file
            writable
        else supdirSetPage s upage 0 0 .zero writable)
    else none
  else some s
termination_by readBytes + zeroBytes

/-- `load_segment`, with its assertions and that of `file_seek`. -/
def loadSegmentChecked (inode : Inode) (ofs upage readBytes zeroBytes : Nat) (writable : Bool)
    (s : Supdir) : Option Supdir :=
  if (readBytes + zeroBytes) % 4294967296 % 4096 = 0 ∧ upage % 4096 = 0 ∧ offT ofs % 4096 = 0 ∧
      0 ≤ offT ofs then
    segmentLoop inode writable ofs upage readBytes zeroBytes s
  else none

/-- The `PT_LOAD` case of `load`, for a header that is valid. -/
def loadHeader (inode : Inode) (ph : Phdr) (s : Supdir) : Option Supdir :=
  let filePage := ph.offset.toNat / 4096 * 4096
  let memPage := ph.vaddr.toNat / 4096 * 4096
  let pageOffset := ph.vaddr.toNat % 4096
  if 0 < ph.filesz then do
    let readBytes := (pageOffset + ph.filesz.toNat) % 4294967296
    let zeroBytes ← sub32 (roundUp32 ((pageOffset + ph.memsz.toNat) % 4294967296)) readBytes
    loadSegmentChecked inode filePage memPage readBytes zeroBytes ph.writable s
  else
    loadSegmentChecked inode filePage memPage 0
      (roundUp32 ((pageOffset + ph.memsz.toNat) % 4294967296)) ph.writable s

section Counters

variable {inode : Inode} {ph : Phdr}

theorem segmentLoop_eq (w : Bool) {n : Nat} (ofs upage : Nat) {rb zb : Nat} (s : Supdir)
    (h : rb + zb = 4096 * n) :
    segmentLoop inode w ofs upage rb zb s = some (loadSegmentPages inode w n ofs upage rb s) := by
  induction n generalizing ofs upage rb zb s with
  | zero =>
    rw [segmentLoop, dif_neg (by omega)]
    rfl
  | succ n ih =>
    have hpage : pageReadBytes rb ≤ 4096 ∧ pageReadBytes rb ≤ rb ∧
        4096 - pageReadBytes rb ≤ zb := by
      unfold pageReadBytes
      split <;> omega
    rw [segmentLoop, dif_pos (by omega), dif_pos hpage]
    exact ih _ _ _ (by omega)

theorem loadHeader_eq (hlen : inode.length < 2147483648)
    (hv : validateSegment ph inode.length = true) (s : Supdir) :
    loadHeader inode ph s = some ((ph.entries inode).foldl Supdir.register s) := by
  obtain ⟨hlow, hsize, hend⟩ := validateSegment_bounds hv
  obtain ⟨-, hofs⟩ := validateSegment_offset hv
  have hbase := physBase_eq
  unfold roundUp at hend
  have hround : roundUp32 ((ph.vaddr.toNat % 4096 + ph.memsz.toNat) % 4294967296) =
      roundUp (ph.vaddr.toNat % 4096 + ph.memsz.toNat) := by
    unfold roundUp32 roundUp
    omega
  obtain ⟨n, hn⟩ : ∃ n, roundUp (ph.vaddr.toNat % 4096 + ph.memsz.toNat) = 4096 * n :=
    ⟨_, Nat.mul_comm _ _⟩
  have hseek : offT (ph.offset.toNat / 4096 * 4096) = (ph.offset.toNat / 4096 * 4096 : Nat) :=
    offT_eq (by omega)
  -- `load_segment` with counters that add up to the rounded size
  have hsegment : ∀ rb zb, rb + zb = 4096 * n → 4096 * n < 4294967296 →
      loadSegmentChecked inode (ph.offset.toNat / 4096 * 4096) (ph.vaddr.toNat / 4096 * 4096) rb zb
        ph.writable s =
      some (loadSegment inode (ph.offset.toNat / 4096 * 4096) (ph.vaddr.toNat / 4096 * 4096) rb zb
        ph.writable s) := by
    intro rb zb hsum hlt
    rw [loadSegmentChecked, if_pos (by rw [hseek, hsum]; omega), segmentLoop_eq _ _ _ _ hsum,
      loadSegment, hsum, Nat.mul_div_cancel_left _ (by omega)]
  have hlt : 4096 * n < 4294967296 := by
    rw [← hn]
    unfold roundUp
    omega
  rw [← loadSegment_eq hv, hn]
  unfold loadHeader
  simp only [hround, hn]
  split
  · next hpos =>
    have hread : ph.vaddr.toNat % 4096 + ph.filesz.toNat ≤ 4096 * n := by
      rw [← hn]
      unfold roundUp
      omega
    have hsmall : (ph.vaddr.toNat % 4096 + ph.filesz.toNat) % 4294967296 =
        ph.vaddr.toNat % 4096 + ph.filesz.toNat := Nat.mod_eq_of_lt (by omega)
    have hsub : sub32 (4096 * n) (ph.vaddr.toNat % 4096 + ph.filesz.toNat) =
        some (4096 * n - (ph.vaddr.toNat % 4096 + ph.filesz.toNat)) := if_pos hread
    rw [hsmall, hsub]
    exact hsegment _ _ (Nat.add_sub_cancel' hread) hlt
  · exact hsegment _ _ (by omega) hlt

end Counters

/-! ## The bytes -/

/-- The page at `va` has a byte of the segment. -/
def Phdr.Overlaps (ph : Phdr) (va : Nat) : Prop :=
  va % 4096 = 0 ∧ va < ph.vaddr.toNat + ph.memsz.toNat ∧ ph.vaddr.toNat < va + 4096

/-- Byte `k` of a segment as the program header means it. -/
def segmentByte (d : Block) (inode : Inode) (ph : Phdr) (k : Nat) : UInt8 :=
  if k < ph.filesz.toNat then d.byteFrom inode.start (ph.offset.toNat + k) else 0

section Bytes

variable {F : Type} {d : Block} {inode : Inode} {ph : Phdr}

theorem overlaps_iff {len : Nat} (hv : validateSegment ph len = true) {va : Nat} :
    ph.Overlaps va ↔ va ∈ (ph.entries inode).map Spte.vaddr := by
  have hpages := firstPage_lt_endPage hv
  rw [mem_entries_vaddr]
  unfold Phdr.Overlaps
  unfold Phdr.firstPage Phdr.endPage at hpages ⊢
  constructor
  · rintro ⟨hal, hlt, hgt⟩
    exact ⟨va / 4096, by omega, by omega, by omega⟩
  · rintro ⟨k, hlo, hhi, rfl⟩
    omega

theorem byteFrom_add (d : Block) (start pos o : Nat) (h : pos % 512 = 0) :
    d.byteFrom (start + pos / 512) o = d.byteFrom start (pos + o) := by
  unfold Block.byteFrom
  have hsector : start + pos / 512 + o / 512 = start + (pos + o) / 512 := by omega
  have hbyte : o % 512 = (pos + o) % 512 := by omega
  rw [hsector, hbyte]

theorem page_of_byte (hv : validateSegment ph inode.length = true) {k : Nat}
    (hk : k < ph.memsz.toNat) :
    ∃ i < ph.endPage - ph.firstPage, (ph.vaddr.toNat + k) / 4096 = ph.firstPage + i ∧
      ph.offset.toNat / 4096 * 4096 + 4096 * i + (ph.vaddr.toNat + k) % 4096 =
        ph.offset.toNat + k ∧
      4096 * i + (ph.vaddr.toNat + k) % 4096 = ph.vaddr.toNat % 4096 + k := by
  obtain ⟨hpage, -⟩ := validateSegment_offset hv
  unfold Phdr.endPage Phdr.firstPage
  exact ⟨(ph.vaddr.toNat + k) / 4096 - ph.vaddr.toNat / 4096, by omega, by omega, by omega, by omega⟩

theorem backing_segmentEntry (hd : d.size ≤ 4294967295) (hi : inode.OnDevice d)
    (hv : validateSegment ph inode.length = true)
    (hend : ph.offset.toNat + ph.filesz.toNat ≤ inode.length) {k i : Nat}
    (hpos : ph.offset.toNat / 4096 * 4096 + 4096 * i + (ph.vaddr.toNat + k) % 4096 =
      ph.offset.toNat + k)
    (hin : 4096 * i + (ph.vaddr.toNat + k) % 4096 = ph.vaddr.toNat % 4096 + k) (swapDev : Block) :
    backing d swapDev (segmentEntry inode ph.writable (ph.offset.toNat / 4096 * 4096)
        (ph.firstPage * 4096) ph.readBytes i) ((ph.vaddr.toNat + k) % 4096) =
      segmentByte d inode ph k := by
  have hlen := hi.length
  have hext := hi.extent
  have hsectors : inode.sectors = (inode.length + 511) / 512 := rfl
  by_cases hzero : ph.filesz = 0
  · have hk : ¬ k < ph.filesz.toNat := by
      rw [hzero]
      exact Nat.not_lt_zero k
    have hleft : ¬ 0 < ph.readBytes - 4096 * i := by
      rw [readBytes_eq_zero hzero]
      omega
    simp only [segmentEntry, if_neg hleft, backing, segmentByte, if_neg hk]
  · obtain ⟨hread, -⟩ := readBytes_end hv hzero
    obtain ⟨hpage, -⟩ := validateSegment_offset hv
    by_cases hleft : 0 < ph.readBytes - 4096 * i
    · simp only [segmentEntry, if_pos hleft, backing, segmentByte]
      by_cases hk : k < ph.filesz.toNat
      · rw [if_pos (by omega), if_pos hk, offT_eq (by omega), byteToSector_in (by omega) (by omega),
          byteFrom_add _ _ _ _ (by omega), hpos]
      · rw [if_neg (by omega), if_neg hk]
    · have hk : ¬ k < ph.filesz.toNat := by omega
      simp only [segmentEntry, if_neg hleft, backing, segmentByte, if_neg hk]

theorem wf_of_mem_entries (hv : validateSegment ph inode.length = true) {e : Spte}
    (he : e ∈ ph.entries inode) : e.Wf ∧ e.writable = ph.writable := by
  obtain ⟨i, hi, rfl⟩ := mem_entries.mp he
  obtain ⟨-, -, hend⟩ := validateSegment_bounds hv
  have huser : ph.firstPage * 4096 + 4096 * i < physBase := by
    unfold Phdr.endPage Phdr.firstPage at hi
    unfold Phdr.firstPage
    unfold roundUp physBase at hend
    unfold physBase
    omega
  by_cases hleft : 0 < ph.readBytes - 4096 * i
  · simp only [segmentEntry, if_pos hleft]
    refine ⟨⟨?_, huser, fun _ => Nat.min_le_right _ _, by simp, by simp⟩, trivial⟩
    show (ph.firstPage * 4096 + 4096 * i) % 4096 = 0
    omega
  · simp only [segmentEntry, if_neg hleft]
    refine ⟨⟨?_, huser, by simp, by simp, fun _ => rfl⟩, trivial⟩
    show (ph.firstPage * 4096 + 4096 * i) % 4096 = 0
    omega

end Bytes

/-! ## Loading the pages -/

namespace Vm

variable {F : Type}

/-- `load_page` of one page after the other, page `p` into the frame `frame p`. -/
def loadPages (a : Alloc) (t : Nat) (frame : Nat → Nat) : List Nat → Vm F → Except Crash (Vm F)
  | [], vm => .ok vm
  | p :: ps, vm =>
    match loadPage a t p (frame p) vm with
    | .ok (_, vm) => loadPages a t frame ps vm
    | .error c => .error c

variable {vm : Vm F} {d : Block} {inode : Inode} {ph : Phdr} {t : Nat} {a : Alloc}

theorem loadPage_entry (hi : inode.OnDevice d) (hv : validateSegment ph inode.length = true)
    (hdev : vm.fsDev = d) (ha : a.pageTable = true) {p f : Nat} {e : Spte}
    (he : e ∈ ph.entries inode) (hholds : e.location = .file → inode.holds e)
    (hspte : vm.spte t p = some e) (habsent : (vm.pte t p).present = false) (hf : f % 4096 = 0) :
    ∃ vm', loadPage a t p f vm = .ok (true, vm') ∧
      Mapped vm vm' t p f e.writable (backing d vm.swapDev e) ∧
      ∀ t' va, vm'.pte t' va =
        if t' = t ∧ va / 4096 = p / 4096 then pteCreateUser f e.writable else vm.pte t' va := by
  obtain ⟨hwf, -⟩ := wf_of_mem_entries hv he
  have hvaddr := spte_vaddr hspte
  have halign := hwf.aligned
  have huser := hwf.user
  rw [hvaddr] at halign huser
  cases hpr : vm.procs t with
  | none =>
    unfold spte at hspte
    rw [hpr] at hspte
    cases hspte
  | some pr =>
    have hlookup := hspte
    rw [spte_of_procs hpr] at hlookup
    have hpte := habsent
    rw [pte_of_procs hpr] at hpte
    obtain ⟨⟨table, m⟩, hfill⟩ := Option.isSome_iff_exists.mp
      (fillFrame_isSome hi he hholds vm.swapDev vm.swapTable vm.mem f)
    have hset : pagedirSetPage a.pageTable pr.pagedir p f e.writable =
        some (true, pr.pagedir.setPte p (pteCreateUser f e.writable)) := by
      rw [pagedirSetPage, if_pos ⟨halign, hf, huser⟩, ha, Bool.or_true, if_pos rfl,
        if_neg (by rw [hpte]; exact Bool.false_ne_true)]
    have hload : ∃ vm', loadPage a t p f vm = .ok (true, vm') := by
      simp only [loadPage, hpr, hlookup, hdev, hfill, hset]
      exact ⟨_, rfl⟩
    obtain ⟨vm', hload⟩ := hload
    obtain ⟨hmap, -, hpresent⟩ := loadPage_ok hspte hwf hload
    rw [hdev] at hmap
    refine ⟨vm', hload, hmap, ?_⟩
    rcases hmap.pte with ⟨-, hnew⟩ | hsame
    · exact hnew
    · have hnow := hpresent ha
      rw [hsame, habsent] at hnow
      cases hnow

theorem loadPages_ok (hi : inode.OnDevice d) (hv : validateSegment ph inode.length = true)
    (hholds : ∀ e ∈ ph.entries inode, e.location = .file → inode.holds e) (hdev : vm.fsDev = d)
    (ha : a.pageTable = true) {frame : Nat → Nat} (hf : ∀ p, frame p % 4096 = 0) {ps : List Nat}
    (hnodup : ps.Nodup) (hinj : ∀ p ∈ ps, ∀ q ∈ ps, frame p = frame q → p = q)
    (hready : ∀ p ∈ ps, (vm.pte t p).present = false ∧ ∃ e ∈ ph.entries inode,
      vm.spte t p = some e) :
    ∃ vm', loadPages a t frame ps vm = .ok vm' ∧
      (∀ va, va / 4096 * 4096 ∉ ps → vm'.pte t va = vm.pte t va) ∧
      (∀ x, (∀ p ∈ ps, frame p ≠ x / 4096 * 4096) → vm'.mem x = vm.mem x) ∧
      ∀ p ∈ ps, ∀ e, vm.spte t p = some e → ∀ o < 4096,
        vm'.pte t (p + o) = pteCreateUser (frame p) e.writable ∧
        vm'.mem (frame p + o) = backing d vm.swapDev e o := by
  induction ps generalizing vm with
  | nil => exact ⟨vm, rfl, fun _ _ => rfl, fun _ _ => rfl, nofun⟩
  | cons p ps ih =>
    obtain ⟨hp, hnodup⟩ := nodup_cons.mp hnodup
    obtain ⟨habsent, e, he, hspte⟩ := hready p mem_cons_self
    obtain ⟨vm₁, hload, hmap, hpte⟩ :=
      loadPage_entry hi hv hdev ha he (hholds e he) hspte habsent (hf p)
    have hpal := hmap.aligned
    have hal : ∀ q ∈ p :: ps, q % 4096 = 0 := by
      intro q hq
      obtain ⟨-, e', he', hspte'⟩ := hready q hq
      rw [← spte_vaddr hspte']
      exact (wf_of_mem_entries hv he').1.aligned
    -- the other pages are as before
    have hother : ∀ q ∈ ps, vm₁.pte t q = vm.pte t q := by
      intro q hq
      have hqal := hal q (mem_cons_of_mem _ hq)
      have hne : q ≠ p := fun heq => hp (heq ▸ hq)
      rw [hpte, if_neg fun h => hne (by omega)]
    obtain ⟨vm', hrest, hkeep, hmem, hpages⟩ := @ih vm₁ (by rw [hmap.fsDev, hdev]) hnodup
      (fun q hq r hr => hinj q (mem_cons_of_mem _ hq) r (mem_cons_of_mem _ hr))
      (fun q hq => by
        rw [hother q hq, hmap.spte]
        exact hready q (mem_cons_of_mem _ hq))
    refine ⟨vm', by simp only [loadPages, hload]; exact hrest, ?_, ?_, ?_⟩
    · intro va hva
      rw [hkeep va fun h => hva (mem_cons_of_mem _ h), hpte, if_neg]
      rintro ⟨-, hpage⟩
      exact hva (mem_cons.mpr (.inl (by omega)))
    · intro x hx
      have hfp := hf p
      have hne := hx p mem_cons_self
      rw [hmem x fun q hq => hx q (mem_cons_of_mem _ hq), hmap.mem, Mem.write_out (by omega)]
    · intro q hq e' he' o ho
      rcases mem_cons.mp hq with rfl | hq
      · -- the page that came first keeps its frame and its entry
        have heq : e' = e := Option.some.inj (he'.symm.trans hspte)
        subst heq
        have hfq := hf q
        have hpage : (q + o) / 4096 * 4096 = q := by omega
        constructor
        · rw [hkeep _ (by rw [hpage]; exact hp), hpte, if_pos ⟨rfl, by omega⟩]
        · rw [hmem _ ?_, hmap.mem, Mem.write_in (by omega) (by omega), Nat.add_sub_cancel_left]
          intro r hr hfr
          have hsame : frame r = frame q := by omega
          exact hp (hinj r (mem_cons_of_mem _ hr) q mem_cons_self hsame ▸ hr)
      · have hspte' : vm₁.spte t q = some e' := by rw [hmap.spte, he']
        have hdone := hpages q hq e' hspte' o ho
        rwa [hmap.swapDev] at hdone

end Vm

/-! ## The segment -/

/-- **Lazy loading of a segment.** For a header that `validate_segment` accepts and whose bytes lie
in the file: `load` and `load_segment` finish, and register the pages with a byte of the segment and
no others, with the header's writable flag. `load_page` of these pages, none of them present, into
frames of their own finishes too; then the segment is mapped with the header's writable flag and
holds the bytes of the file and zeros. -/
theorem segment_loads {F : Type} {d : Block} {inode : Inode} {ph : Phdr} (hd : d.size ≤ 4294967295)
    (hi : inode.OnDevice d) (hv : validateSegment ph inode.length = true)
    (hend : ph.offset.toNat + ph.filesz.toNat ≤ inode.length) (s : Supdir) :
    ∃ s', loadHeader inode ph s = some s' ∧
      (∀ va, ph.Overlaps va →
        ∃ e, lookupSupPage s' va = some e ∧ e.writable = ph.writable) ∧
      (∀ va, ¬ ph.Overlaps va → lookupSupPage s' va = lookupSupPage s va) ∧
      ∀ (vm : Vm F) (t : Nat) (pd : Pagedir) (a : Alloc) (frame : Nat → Nat) (pages : List Nat),
        vm.procs t = some ⟨pd, s'⟩ → vm.fsDev = d → a.pageTable = true →
        (∀ va, va ∈ pages ↔ ph.Overlaps va) → pages.Nodup →
        (∀ va ∈ pages, (pd.pte va).present = false) → (∀ va, frame va % 4096 = 0) →
        (∀ va ∈ pages, ∀ vb ∈ pages, frame va = frame vb → va = vb) →
        ∃ vm', vm.loadPages a t frame pages = .ok vm' ∧
          ∀ k < ph.memsz.toNat, ∃ f, vm'.pte t (ph.vaddr.toNat + k) = pteCreateUser f ph.writable ∧
            vm'.mem (f + (ph.vaddr.toNat + k) % 4096) = segmentByte d inode ph k := by
  have hext := hi.extent
  have hlookup : ∀ e ∈ ph.entries inode,
      lookupSupPage ((ph.entries inode).foldl Supdir.register s) e.vaddr = some e :=
    fun e he => lookup_calls (entries_nodup inode ph) he
  have hholds : ∀ e ∈ ph.entries inode, e.location = .file → inode.holds e := by
    intro e he hloc
    have hsectors : inode.sectors = (inode.length + 511) / 512 := rfl
    exact holds_segmentEntry hi.length (le_trans hext hd) hv (.inr (by omega)) he hloc
  -- the entry of a page with a byte of the segment
  have hentry : ∀ va, ph.Overlaps va → ∃ e ∈ ph.entries inode,
      lookupSupPage ((ph.entries inode).foldl Supdir.register s) va = some e := by
    intro va hva
    obtain ⟨e, he, rfl⟩ := mem_map.mp ((overlaps_iff hv).mp hva)
    exact ⟨e, he, hlookup e he⟩
  refine ⟨_, loadHeader_eq hi.length hv s, ?_, ?_, ?_⟩
  · intro va hva
    obtain ⟨e, he, hlook⟩ := hentry va hva
    exact ⟨e, hlook, (wf_of_mem_entries hv he).2⟩
  · intro va hva
    exact lookup_foldl_of_notMem fun hmem => hva ((overlaps_iff hv).mpr hmem)
  · intro vm t pd a frame pages hpr hdev ha hpages hnodup habsent hf hinj
    obtain ⟨vm', hload, -, -, hall⟩ := @Vm.loadPages_ok F vm d inode ph t a hi hv hholds hdev ha frame
      hf pages hnodup hinj (by
        intro p hp
        rw [Vm.pte_of_procs hpr, Vm.spte_of_procs hpr]
        exact ⟨habsent p hp, hentry p ((hpages p).mp hp)⟩)
    refine ⟨vm', hload, ?_⟩
    intro k hk
    obtain ⟨i, hi', hpage, hpos, hin⟩ := page_of_byte hv hk
    obtain ⟨e, he⟩ : ∃ e, e = segmentEntry inode ph.writable (ph.offset.toNat / 4096 * 4096)
        (ph.firstPage * 4096) ph.readBytes i := ⟨_, rfl⟩
    have hmem : e ∈ ph.entries inode := mem_entries.mpr ⟨i, hi', he⟩
    have hvaddr : e.vaddr = ph.firstPage * 4096 + 4096 * i := by rw [he, segmentEntry_vaddr]
    have hover : ph.Overlaps e.vaddr := (overlaps_iff hv).mpr (mem_map_of_mem hmem)
    have hspte : vm.spte t e.vaddr = some e := by rw [Vm.spte_of_procs hpr, hlookup e hmem]
    obtain ⟨hpte, hbyte⟩ := hall e.vaddr ((hpages _).mpr hover) e hspte
      ((ph.vaddr.toNat + k) % 4096) (Nat.mod_lt _ (by decide))
    have haddr : e.vaddr + (ph.vaddr.toNat + k) % 4096 = ph.vaddr.toNat + k := by omega
    rw [haddr, (wf_of_mem_entries hv hmem).2] at hpte
    rw [he, backing_segmentEntry hd hi hv hend hpos hin, ← he] at hbyte
    exact ⟨frame e.vaddr, hpte, hbyte⟩

/-- 500 bytes of a file at position 100, and zeros up to 4096 bytes: two pages. -/
def dataHeader : Phdr := ⟨.load, 100, 0x8048064, 500, 4096, true⟩

/-- A device on which every byte is the number of its sector. -/
def sectorNumbers : Block := ⟨32, fun sector _ => UInt8.ofNat sector⟩

/-- Thread 1 with the table `s` and nothing present. -/
def startedWith (s : Supdir) : Vm Unit where
  procs := Function.update (fun _ => none) 1 (some ⟨pagedirCreate, s⟩)
  ft := ()
  userPool := ⟨0xc0100000, bitmapCreate 2, by decide, by decide⟩
  swapTable := bitmapCreate 0
  mem := fun _ => 0xcc
  swapDev := ⟨0, fun _ _ => 0⟩
  fsDev := sectorNumbers

/-- The second sector of the file is read at its byte 412, byte 500 is zero. -/
theorem segment_loads_dataHeader :
    ∃ s vm f, loadHeader ⟨10, 8192⟩ dataHeader supdirCreate = some s ∧
      (startedWith s).loadPages ⟨true, true⟩ 1 (fun va => 0xc0100000 + va / 4096 * 4096)
        [0x8048000, 0x8049000] = .ok vm ∧
      vm.pte 1 0x8048200 = pteCreateUser f true ∧ vm.mem (f + 0x200) = 11 ∧
      ∃ f', vm.mem (f' + 600) = 0 := by
  obtain ⟨s, hs, -, -, hpages⟩ := @segment_loads Unit sectorNumbers ⟨10, 8192⟩ dataHeader (by decide)
    ⟨by decide, by decide⟩ (by decide +kernel) (by decide) supdirCreate
  have hover : ∀ va, va ∈ [0x8048000, 0x8049000] ↔ dataHeader.Overlaps va := by
    intro va
    show _ ↔ va % 4096 = 0 ∧ va < 0x8048064 + 4096 ∧ 0x8048064 < va + 4096
    simp only [mem_cons, not_mem_nil, or_false]
    omega
  obtain ⟨vm, hload, hbytes⟩ := hpages (startedWith s) 1 pagedirCreate ⟨true, true⟩
    (fun va => 0xc0100000 + va / 4096 * 4096) [0x8048000, 0x8049000] rfl rfl rfl hover (by decide)
    (fun _ _ => rfl) (fun va => by omega) (by decide)
  obtain ⟨f, hpte, hbyte⟩ := hbytes 412 (by decide)
  obtain ⟨f', -, hzero⟩ := hbytes 500 (by decide)
  exact ⟨s, vm, f, hs, hload, hpte, hbyte, f', hzero⟩

end Pintos
