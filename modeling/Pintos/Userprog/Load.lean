import Pintos.Vm.Page
import Pintos.Filesys.Inode

/-!
# Registering an executable's pages (`load` and its helpers in `userprog/process.c`)

`load` reads nothing of a segment: for each page it registers a supplemental entry, and
the page is read on its first fault. `loadPhdrs` is the loop over the program headers,
`loadSegment` the loop over the pages of one segment.
-/

namespace Pintos

/-- `p_type`. A header that cannot be read makes `load` fail as `PT_DYNAMIC` does. -/
inductive PType
  | load | dynamic | interp | shlib | other
  deriving DecidableEq, Repr

/-- `struct Elf32_Phdr`; of `p_flags` only `PF_W` is read. -/
structure Phdr where
  type : PType
  offset : UInt32
  vaddr : UInt32
  filesz : UInt32
  memsz : UInt32
  writable : Bool
  deriving DecidableEq, Repr

/-- `validate_segment`. -/
def validateSegment (ph : Phdr) (fileLength : Nat) : Bool :=
  ph.offset % 4096 == ph.vaddr % 4096 && ph.offset.toNat ≤ fileLength && ph.filesz ≤ ph.memsz &&
    ph.memsz != 0 && ph.vaddr < 0xc0000000 && ph.vaddr + ph.memsz < 0xc0000000 &&
    ph.vaddr ≤ ph.vaddr + ph.memsz && 4096 ≤ ph.vaddr

/-- The loop of `load_segment`, for the `n` pages that are left. -/
def loadSegmentPages (inode : Inode) (writable : Bool) : Nat → Nat → Nat → Nat → Supdir → Supdir
  | 0, _, _, _, s => s
  | n + 1, ofs, upage, readBytes, s =>
    let pageReadBytes := if readBytes < 4096 then readBytes else 4096
    loadSegmentPages inode writable n (ofs + 4096) (upage + 4096) (readBytes - pageReadBytes)
      (if 0 < pageReadBytes then
        supdirSetPage s upage (byteToSector inode (offT ofs)) pageReadBytes .file writable
      else supdirSetPage s upage 0 0 .zero writable)

/-- `load_segment`: the loop runs until all of `read_bytes + zero_bytes` are registered. -/
def loadSegment (inode : Inode) (ofs upage readBytes zeroBytes : Nat) (writable : Bool)
    (s : Supdir) : Supdir :=
  loadSegmentPages inode writable ((readBytes + zeroBytes) / 4096) ofs upage readBytes s

/-- `ROUND_UP (x, PGSIZE)`. -/
def roundUp (x : Nat) : Nat := (x + 4095) / 4096 * 4096

/-- The loop of `load` over the program headers: false for `goto done`. -/
def loadPhdrs (inode : Inode) : List Phdr → Supdir → Bool × Supdir
  | [], s => (true, s)
  | ph :: phs, s =>
    match ph.type with
    | .other => loadPhdrs inode phs s
    | .load =>
      if validateSegment ph inode.length then
        let pageOffset := ph.vaddr.toNat % 4096
        let readBytes := if 0 < ph.filesz then pageOffset + ph.filesz.toNat else 0
        let zeroBytes := roundUp (pageOffset + ph.memsz.toNat) - readBytes
        loadPhdrs inode phs
          (loadSegment inode (ph.offset.toNat / 4096 * 4096) (ph.vaddr.toNat / 4096 * 4096)
            readBytes zeroBytes ph.writable s)
      else (false, s)
    | _ => (false, s)

/-! ## The entries that `load` registers -/

/-- An entry as `load` registers it. -/
structure Spte.Registered (e : Spte) : Prop extends e.Wf where
  not_page0 : 4096 ≤ e.vaddr
  not_swap : e.location ≠ .swap

/-- All entries of a table are as `load` registers them. -/
def Supdir.Registered (s : Supdir) : Prop := ∀ va e, lookupSupPage s va = some e → e.Registered

theorem registered_create : supdirCreate.Registered := by
  intro va e h
  cases h

theorem Supdir.Registered.setPage {s : Supdir} (h : s.Registered) {va sector rb : Nat}
    {loc : Location} {w : Bool} (hnew : (⟨w, loc, sector, rb, va⟩ : Spte).Registered) :
    (supdirSetPage s va sector rb loc w).Registered := by
  intro vb e he
  rw [lookup_setPage] at he
  split at he
  · cases he
    exact hnew
  · exact h vb e he

theorem loadSegmentPages_registered {inode : Inode} {w : Bool} {n ofs upage rb : Nat} {s : Supdir}
    (hal : upage % 4096 = 0) (hlo : 4096 ≤ upage) (hhi : upage + 4096 * n ≤ physBase)
    (h : s.Registered) : (loadSegmentPages inode w n ofs upage rb s).Registered := by
  induction n generalizing ofs upage rb s with
  | zero => exact h
  | succ n ih =>
    have huser : upage < physBase := by omega
    have hle : (if rb < 4096 then rb else 4096) ≤ 4096 := by
      split
      · next hlt => exact Nat.le_of_lt hlt
      · exact le_rfl
    unfold loadSegmentPages
    generalize (if rb < 4096 then rb else 4096) = prb at hle
    refine ih (by omega) (Nat.le_add_left _ _) (by omega) ?_
    split
    · refine h.setPage ⟨⟨hal, huser, fun _ => hle, ?_, ?_⟩, hlo, ?_⟩
      all_goals simp
    · refine h.setPage ⟨⟨hal, huser, ?_, ?_, fun _ => rfl⟩, hlo, ?_⟩
      all_goals simp

theorem validateSegment_bounds {ph : Phdr} {len : Nat} (h : validateSegment ph len = true) :
    4096 ≤ ph.vaddr.toNat ∧ ph.filesz.toNat ≤ ph.memsz.toNat ∧
      ph.vaddr.toNat / 4096 * 4096 + roundUp (ph.vaddr.toNat % 4096 + ph.memsz.toNat) ≤ physBase := by
  simp only [validateSegment, Bool.and_eq_true, decide_eq_true_eq, UInt32.le_iff_toNat_le,
    UInt32.lt_iff_toNat_lt, UInt32.toNat_add] at h
  obtain ⟨⟨⟨⟨⟨⟨⟨-, -⟩, hsize⟩, -⟩, hlo⟩, hend⟩, hwrap⟩, hpage⟩ := h
  have hv := ph.vaddr.toNat_lt
  have hm := ph.memsz.toNat_lt
  simp only [UInt32.reduceToNat] at hlo hend hpage
  unfold roundUp physBase
  refine ⟨hpage, hsize, ?_⟩
  omega

theorem loadPhdrs_registered {inode : Inode} {phs : List Phdr} {s : Supdir} (h : s.Registered) :
    (loadPhdrs inode phs s).2.Registered := by
  induction phs generalizing s with
  | nil => exact h
  | cons ph phs ih =>
    unfold loadPhdrs
    split
    · exact ih h
    · split
      · next hvalid =>
        obtain ⟨hpage, hsize, hend⟩ := validateSegment_bounds hvalid
        refine ih (loadSegmentPages_registered (by omega) (by omega) (le_trans ?_ hend) h)
        have hread : (if 0 < ph.filesz then ph.vaddr.toNat % 4096 + ph.filesz.toNat else 0) ≤
            roundUp (ph.vaddr.toNat % 4096 + ph.memsz.toNat) := by
          unfold roundUp
          split <;> omega
        omega
      · exact h
    · exact h

end Pintos
