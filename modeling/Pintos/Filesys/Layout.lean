import Pintos.Filesys.Filesys
import Pintos.Lib.Ownership

/-!
# Where files lie

Of some inodes, the live ones, `Laid` says that their sectors and the sectors of their data have no
sector in common, lie on the device and are marked in the free map. It is kept when sectors are changed
in which no live inode is (`Laid.frame`), when a new inode gets sectors that nobody has (`Laid.add`) and
when sectors are released that nobody has (`Laid.unmark`).
-/

namespace Pintos

open Lib

/-- What sectors belong to: the inode in sector `k`, or its data. -/
inductive Holder
  | header (k : Nat)
  | data (k : Nat)
  deriving DecidableEq

/-- The sectors of the live inodes. -/
def Block.owns (d : Block) (live : Nat → Prop) : Holder → Nat → Prop
  | .header k, s => live k ∧ s = k
  | .data k, s => live k ∧ (d.inodeAt k).start ≤ s ∧
      s < (d.inodeAt k).start + bytesToSectors (d.inodeAt k).length

/-- The sector `s` is on the device and marked. -/
def Bitmap.used (b : Bitmap) (s : Nat) : Prop := s < b.bitCnt ∧ bitmapTest b s = true

/-- The live inodes have sectors of their own. -/
structure Laid (d : Block) (b : Bitmap) (live : Nat → Prop) : Prop where
  size : b.bitCnt = d.size
  bound : d.size + 31 < 4294967296
  owned : Owned (d.owns live) b.used
  length : ∀ {k}, live k → (d.inodeAt k).length < 2147483648
  extent : ∀ {k}, live k →
    (d.inodeAt k).start + bytesToSectors (d.inodeAt k).length ≤ d.size

/-- Only the sectors in `S` have changed. -/
structure Block.SameBut (d d' : Block) (S : Nat → Prop) : Prop where
  size : d'.size = d.size
  data : ∀ {s o}, ¬ S s → o < 512 → d'.data s o = d.data s o

namespace Block.SameBut

variable {d d₁ d' : Block} {S S' : Nat → Prop}

theorem refl (d : Block) (S : Nat → Prop) : d.SameBut d S := ⟨rfl, fun _ _ => rfl⟩

theorem trans (h : d.SameBut d₁ S) (h' : d₁.SameBut d' S') :
    d.SameBut d' fun s => S s ∨ S' s where
  size := h'.size.trans h.size
  data hs ho := by
    rw [not_or] at hs
    exact (h'.data hs.2 ho).trans (h.data hs.1 ho)

theorem mono (h : d.SameBut d' S) (hS : ∀ {s}, S s → S' s) : d.SameBut d' S' :=
  ⟨h.size, fun hs ho => h.data (fun hin => hs (hS hin)) ho⟩

theorem inodeAt (h : d.SameBut d' S) {k : Nat} (hk : ¬ S k) : d'.inodeAt k = d.inodeAt k := by
  have hword : ∀ a, a + 4 ≤ 512 → Mem.word (d'.data k) a = Mem.word (d.data k) a := by
    intro a ha
    exact Mem.word_congr fun i hi => h.data hk (by omega)
  unfold Block.inodeAt Inode.ofHeader
  rw [hword 0 (by omega), hword 4 (by omega)]

end Block.SameBut

theorem Block.SameBut.owns {d d' : Block} {live : Nat → Prop} {S : Nat → Prop} (hd : d.SameBut d' S)
    (hS : ∀ {k}, live k → ¬ S k) {h : Holder} {s : Nat} : d'.owns live h s ↔ d.owns live h s := by
  cases h with
  | header k => exact Iff.rfl
  | data k =>
    refine and_congr_right fun hk => ?_
    rw [hd.inodeAt (hS hk)]

namespace Laid

variable {d d' : Block} {b b' : Bitmap} {live live' : Nat → Prop} {S : Nat → Prop} {k : Nat}

section

variable (h : Laid d b live)
include h

theorem onDevice (hk : live k) : (d.inodeAt k).OnDevice d := by
  have hle := sectors_le_bytesToSectors (h.length hk)
  have hextent := h.extent hk
  exact ⟨h.length hk, by omega⟩

theorem header_lt (hk : live k) : k < d.size := by
  have hused := h.owned.used (h := .header k) ⟨hk, rfl⟩
  rw [← h.size]
  exact hused.1

theorem header_ne_data (hk : live k) {j : Nat} : ¬ d.owns live (.data j) k := by
  intro hj
  have heq := h.owned.excl (h := .header k) ⟨hk, rfl⟩ hj
  cases heq

theorem frame (hd : d.SameBut d' S) (hS : ∀ {k}, live k → ¬ S k) :
    Laid d' b live where
  size := h.size.trans hd.size.symm
  bound := by
    rw [hd.size]
    exact h.bound
  owned := h.owned.mono (hd.owns hS).mp fun hu => hu
  length hk := by
    rw [hd.inodeAt (hS hk)]
    exact h.length hk
  extent hk := by
    rw [hd.inodeAt (hS hk), hd.size]
    exact h.extent hk

theorem mono (hlive : ∀ {k}, live' k → live k) (hsize : b'.bitCnt = b.bitCnt)
    (hbits : ∀ {s}, bitmapTest b s = true → bitmapTest b' s = true) : Laid d b' live' where
  size := hsize.trans h.size
  bound := h.bound
  owned := by
    refine h.owned.mono ?_ fun hu => ⟨hsize ▸ hu.1, hbits hu.2⟩
    rintro (j | j) s hs
    · exact ⟨hlive hs.1, hs.2⟩
    · exact ⟨hlive hs.1, hs.2⟩
  length hk := h.length (hlive hk)
  extent hk := h.extent (hlive hk)

theorem unmark {A : Nat → Prop} (hsize : b'.bitCnt = b.bitCnt)
    (hbits : ∀ {s}, bitmapTest b s = true → ¬ A s → bitmapTest b' s = true)
    (hA : ∀ {h s}, A s → ¬ d.owns live h s) : Laid d b' live where
  size := hsize.trans h.size
  bound := h.bound
  owned := by
    refine ⟨fun h₁ h₂ => h.owned.excl h₁ h₂, fun hs => ?_⟩
    have hu := h.owned.used hs
    exact ⟨hsize ▸ hu.1, hbits hu.2 fun hin => hA hin hs⟩
  length hk := h.length hk
  extent hk := h.extent hk

theorem add (hk : b.used k) (hfree : ∀ {h}, ¬ d.owns live h k)
    (hrun : ∀ {s}, (d.inodeAt k).start ≤ s →
      s < (d.inodeAt k).start + bytesToSectors (d.inodeAt k).length →
      b.used s ∧ s ≠ k ∧ ∀ {h}, ¬ d.owns live h s)
    (hlength : (d.inodeAt k).length < 2147483648)
    (hextent : (d.inodeAt k).start + bytesToSectors (d.inodeAt k).length ≤ d.size) :
    Laid d b fun j => live j ∨ j = k where
  size := h.size
  bound := h.bound
  owned := by
    -- first the sector of the inode, then its data
    let own : Holder → Nat → Prop := fun j s => d.owns live j s ∨ j = .header k ∧ s = k
    have hheader : Owned own b.used := by
      refine h.owned.acquire (.header k) (· = k) (fun hs => hs) ?_ ?_
      · rintro j s rfl
        exact hfree
      · rintro s (hs | rfl)
        · exact hs
        · exact hk
    refine hheader.acquire (.data k) (fun s => (d.inodeAt k).start ≤ s ∧
      s < (d.inodeAt k).start + bytesToSectors (d.inodeAt k).length) ?_ ?_ ?_
    · rintro (j | j) s ⟨hj | rfl, hs⟩
      · exact .inl (.inl ⟨hj, hs⟩)
      · exact .inl (.inr ⟨rfl, hs⟩)
      · exact .inl (.inl ⟨hj, hs⟩)
      · exact .inr ⟨rfl, hs⟩
    · rintro j s ⟨hle, hlt⟩ hs
      obtain ⟨-, hne, hnone⟩ := hrun hle hlt
      rcases hs with hs | ⟨-, rfl⟩
      · exact hnone hs
      · exact hne rfl
    · rintro s (hs | ⟨hle, hlt⟩)
      · exact hs
      · exact (hrun hle hlt).1
  length hj := by
    rcases hj with hj | rfl
    · exact h.length hj
    · exact hlength
  extent hj := by
    rcases hj with hj | rfl
    · exact h.extent hj
    · exact hextent

/-- The writes of `inode_create`: an inode in sector `k`, with a run of zeros for its data. -/
theorem create {start n : Nat} (hk : b.used k) (hfree : ∀ {h}, ¬ d.owns live h k)
    (hrun : ∀ {s}, start ≤ s → s < start + bytesToSectors n →
      b.used s ∧ s ≠ k ∧ ∀ {h}, ¬ d.owns live h s)
    (hn : n < 2147483648) (hfits : start + bytesToSectors n ≤ d.size) :
    ∃ d', (blockWrite d k (Inode.header ⟨start, n⟩) 0 >>= fun d =>
        writeSectors (fun _ => 0) (bytesToSectors n) d start 0) = some d' ∧
      d.SameBut d' (fun s => s = k ∨ start ≤ s ∧ s < start + bytesToSectors n) ∧
      Laid d' b (fun j => live j ∨ j = k) ∧ d'.inodeAt k = ⟨start, n⟩ ∧
      ∀ o < n, d'.byteFrom start o = 0 := by
  have hlt : k < d.size := h.size ▸ hk.1
  have hbound := h.bound
  let d₁ : Block := { d with data := Function.update d.data k fun o => Inode.header ⟨start, n⟩ (0 + o) }
  obtain ⟨d', hd'⟩ := Option.isSome_iff_exists.mp
    (@writeSectors_isSome (fun _ => 0) (bytesToSectors n) d₁ start 0 hfits)
  obtain ⟨hsize, -, hdata⟩ := writeSectors_some hd'
  have hsame : d.SameBut d' fun s => s = k ∨ start ≤ s ∧ s < start + bytesToSectors n := by
    refine ⟨hsize, fun {s o} hs _ => ?_⟩
    rw [not_or] at hs
    rw [hdata, if_neg hs.2]
    exact congrFun (Function.update_of_ne hs.1 ..) o
  have hlive : ∀ {j}, live j → ¬ (j = k ∨ start ≤ j ∧ j < start + bytesToSectors n) := by
    rintro j hj (rfl | ⟨hle, hin⟩)
    · exact hfree (h := .header j) ⟨hj, rfl⟩
    · exact (hrun hle hin).2.2 (h := .header j) ⟨hj, rfl⟩
  -- the run of zeros does not touch the inode
  have hinode : d'.inodeAt k = ⟨start, n⟩ := by
    have hstart : start < 4294967296 := by omega
    have hlength : n < 4294967296 := by omega
    have hheader : d'.data k = Inode.header ⟨start, n⟩ := by
      funext o
      rw [hdata, if_neg fun hin => (hrun hin.1 hin.2).2.1 rfl]
      show Function.update d.data k _ k o = _
      rw [Function.update_self, Nat.zero_add]
    rw [Block.inodeAt, hheader]
    exact @ofHeader_header ⟨start, n⟩ hstart hlength
  refine ⟨d', ?_, hsame, ?_, hinode, fun o ho => ?_⟩
  · rw [blockWrite_eq hlt, Option.bind_eq_bind, Option.bind_some]
    exact hd'
  · refine (h.frame hsame hlive).add hk ((hsame.owns hlive).not.mpr hfree) ?_ ?_ ?_
    · rw [hinode]
      intro s hle hin
      obtain ⟨hu, hne, hnone⟩ := hrun hle hin
      exact ⟨hu, hne, (hsame.owns hlive).not.mpr hnone⟩
    · rw [hinode]
      exact hn
    · rw [hinode, hsize]
      exact hfits
  · have hsectors := sectors_le_bytesToSectors (show (⟨start, n⟩ : Inode).length < 2147483648 from hn)
    unfold Inode.sectors at hsectors
    simp only at hsectors
    exact byteFrom_writeSectors hd' (by omega)

end

end Laid

end Pintos
