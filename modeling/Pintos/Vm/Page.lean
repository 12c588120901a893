import Pintos.Vm.Swap
import Pintos.Threads.Palloc

/-!
# The supplemental page table (`vm/page.c`)

A supplemental entry says where the contents of a page are when it is not in a frame.
The table is a hash table in the source, with a hash function and an order that depend
on the page address only; here it is a list of entries with distinct addresses.
-/

namespace Pintos

open Lib Mem List

/-- `ZERO_SYS`, `MEM_SYS`, `SWAP_SYS` and `FILE_SYS`. -/
inductive Location
  | zero | mem | swap | file
  deriving DecidableEq, Repr

/-- `struct spte`. -/
structure Spte where
  writable : Bool
  location : Location
  sector : Nat
  readBytes : Nat
  vaddr : Nat
  deriving DecidableEq, Repr

/-- `struct hash *supdir`: no two entries have the same address. -/
structure Supdir where
  entries : List Spte
  nodup : (entries.map Spte.vaddr).Nodup

/-- `supdir_create`. -/
def supdirCreate : Supdir := ⟨[], List.nodup_nil⟩

/-- `lookup_sup_page`. -/
def lookupSupPage (s : Supdir) (vaddr : Nat) : Option Spte :=
  s.entries.find? fun e => e.vaddr == vaddr

/-- `supdir_set_page`; `malloc` is taken to succeed. -/
def supdirSetPage (s : Supdir) (vaddr sector readBytes : Nat) (location : Location)
    (writable : Bool) : Supdir where
  entries := ⟨writable, location, sector, readBytes, vaddr⟩ ::
    s.entries.filter fun e => e.vaddr != vaddr
  nodup := by
    rw [List.map_cons, List.nodup_cons]
    refine ⟨?_, s.nodup.sublist (List.filter_sublist.map _)⟩
    simp only [List.mem_map, List.mem_filter]
    rintro ⟨e, ⟨-, he⟩, heq⟩
    simp [heq] at he

/-- The assignments of `supdir_set_swap` to an entry. -/
def Spte.setSwap (e : Spte) (sector : Nat) : Spte :=
  { e with location := .swap, sector := sector, readBytes := 4096 }

/-- `supdir_set_swap`. -/
def supdirSetSwap (s : Supdir) (vaddr swapSector : Nat) : Bool × Supdir where
  fst := (lookupSupPage s vaddr).isSome
  snd :=
    { entries := s.entries.map fun e => if e.vaddr = vaddr then e.setSwap swapSector else e
      nodup := by
        have hkeys : (s.entries.map fun e => if e.vaddr = vaddr then e.setSwap swapSector else e).map
            Spte.vaddr = s.entries.map Spte.vaddr := by
          rw [List.map_map]
          refine List.map_congr_left fun e _ => ?_
          simp only [Function.comp_apply]
          split <;> rfl
        rw [hkeys]
        exact s.nodup }

/-! ## Lookups -/

variable {e : Spte} {frame : Nat} {m m' : Mem}

theorem lookup_vaddr {s : Supdir} {va : Nat} (h : lookupSupPage s va = some e) :
    e.vaddr = va := by simpa using find?_some h

@[simp] theorem lookup_create (va : Nat) : lookupSupPage supdirCreate va = none := rfl

theorem lookup_setPage (s : Supdir) (va sector rb : Nat) (loc : Location) (w : Bool) (vb : Nat) :
    lookupSupPage (supdirSetPage s va sector rb loc w) vb =
      if vb = va then some ⟨w, loc, sector, rb, va⟩ else lookupSupPage s vb := by
  unfold lookupSupPage supdirSetPage
  by_cases h : vb = va
  · simp [h]
  · rw [find?_cons_of_neg (by simpa using fun h' => h h'.symm), find?_filter, if_neg h]
    congr 1
    funext e
    by_cases he : e.vaddr = vb
    · simp [he, h]
    · simp [he]

theorem lookup_setSwap (s : Supdir) (va sector vb : Nat) :
    lookupSupPage (supdirSetSwap s va sector).2 vb =
      if vb = va then (lookupSupPage s va).map (·.setSwap sector) else lookupSupPage s vb := by
  unfold lookupSupPage supdirSetSwap
  simp only [find?_map]
  have hkey : ((fun e : Spte => e.vaddr == vb) ∘
      fun e : Spte => if e.vaddr = va then e.setSwap sector else e) = fun e => e.vaddr == vb := by
    funext e
    simp only [Function.comp_apply]
    split <;> rfl
  rw [hkey]
  by_cases h : vb = va
  · subst h
    rw [if_pos rfl]
    cases hf : s.entries.find? fun e => e.vaddr == vb with
    | none => rfl
    | some e =>
      have he : e.vaddr = vb := by simpa using find?_some hf
      simp [he]
  · rw [if_neg h]
    cases hf : s.entries.find? fun e => e.vaddr == vb with
    | none => rfl
    | some e =>
      have he : e.vaddr = vb := by simpa using find?_some hf
      simp [he, h]

theorem mem_entries_iff {s : Supdir} :
    e ∈ s.entries ↔ lookupSupPage s e.vaddr = some e := by
  constructor
  · intro he
    unfold lookupSupPage
    have hsome : (s.entries.find? fun x => x.vaddr == e.vaddr).isSome := by
      rw [find?_isSome]
      exact ⟨e, he, by simp⟩
    obtain ⟨e', he'⟩ := Option.isSome_iff_exists.mp hsome
    have hkey : e'.vaddr = e.vaddr := by simpa using find?_some he'
    rw [he', inj_on_of_nodup_map s.nodup (mem_of_find?_eq_some he') he hkey]
  · exact mem_of_find?_eq_some

/-! ## `load_page` -/

/-- The loop of `load_page` over the sectors of a file page. `fuel` bounds the iterations. -/
def readFileSectors (fsDev : Block) : Nat → Nat → Nat → Mem → Nat → Option (Mem × Nat)
  | 0, _, _, m, frame => some (m, frame)
  | fuel + 1, sector, readBytes, m, frame =>
    if 0 < readBytes then
      match blockRead fsDev sector m frame with
      | some m =>
        readFileSectors fsDev fuel (sector + 1) (readBytes - 512) m
          (frame + if 512 ≤ readBytes then 512 else readBytes)
      | none => none
    else some (m, frame)

/-- `load_page` of the entry `e` into `frame`, up to the call of `pagedir_set_page`. -/
def fillFrame (fsDev swapDev : Block) (table : Bitmap) (e : Spte) (m : Mem) (frame : Nat) :
    Option (Bitmap × Mem) :=
  let zeroBytes := 4096 - e.readBytes
  match e.location with
  | .file =>
    match readFileSectors fsDev e.readBytes e.sector e.readBytes m frame with
    | some (m, frame') => some (table, m.fill frame' zeroBytes 0)
    | none => none
  | .swap =>
    match swapRead table swapDev e.sector m frame with
    | some (table, m) => some (table, m.fill frame zeroBytes 0)
    | none => none
  | _ => some (table, m.fill frame zeroBytes 0)

/-- An entry as the kernel makes them: the address of a user page, and `read_bytes` as the
location has it. -/
structure Spte.Wf (e : Spte) : Prop where
  aligned : e.vaddr % 4096 = 0
  user : e.vaddr < physBase
  readBytes_le : e.location = .file → e.readBytes ≤ 4096
  readBytes_swap : e.location = .swap → e.readBytes = 4096
  readBytes_zero : e.location = .zero ∨ e.location = .mem → e.readBytes = 0

theorem Spte.Wf.setSwap (h : e.Wf) (sector : Nat) : (e.setSwap sector).Wf :=
  ⟨h.aligned, h.user, by simp [Spte.setSwap], fun _ => rfl, by simp [Spte.setSwap]⟩

/-- Byte `o` of the page that the entry `e` describes, as it lies on the devices. -/
def backing (fsDev swapDev : Block) (e : Spte) (o : Nat) : UInt8 :=
  match e.location with
  | .file => if o < e.readBytes then fsDev.byteFrom e.sector o else 0
  | .swap => swapDev.byteFrom e.sector o
  | _ => 0

theorem readFileSectors_some {d : Block} {fuel sector rb : Nat} {frame' : Nat}
    (h : readFileSectors d fuel sector rb m frame = some (m', frame')) (hfuel : rb ≤ 512 * fuel) :
    frame' = frame + rb ∧ m' = m.write frame (512 * ((rb + 511) / 512)) (d.byteFrom sector) := by
  induction fuel generalizing sector rb m frame with
  | zero =>
    cases h
    have hrb : rb = 0 := by omega
    subst hrb
    refine ⟨rfl, funext fun x => ?_⟩
    rw [write_out (by omega)]
  | succ fuel ih =>
    unfold readFileSectors at h
    split at h
    · next hpos =>
      split at h
      · next m₁ hm₁ =>
        obtain ⟨-, rfl⟩ := blockRead_some hm₁
        obtain ⟨hframe, rfl⟩ := ih h (by omega)
        by_cases hfull : 512 ≤ rb
        · rw [if_pos hfull] at hframe ⊢
          refine ⟨by omega, funext fun x => ?_⟩
          have hn : 512 * ((rb + 511) / 512) = 512 + 512 * ((rb - 512 + 511) / 512) := by omega
          rw [hn]
          by_cases h₁ : frame ≤ x ∧ x < frame + 512
          · rw [write_out (by omega), write_in h₁.1 h₁.2, write_in h₁.1 (by omega),
              Block.byteFrom_first _ _ (by omega)]
          · by_cases h₂ : frame + 512 ≤ x ∧
                x < frame + (512 + 512 * ((rb - 512 + 511) / 512))
            · have hofs : x - frame = 512 + (x - (frame + 512)) := by omega
              rw [write_in h₂.1 (by omega), write_in (by omega) h₂.2, hofs,
                Block.byteFrom_add]
            · rw [write_out (by omega), write_out (by omega),
                write_out (by omega)]
        · rw [if_neg hfull] at hframe ⊢
          have hlast : rb - 512 = 0 := by omega
          have hone : 512 * ((rb + 511) / 512) = 512 := by omega
          rw [hlast] at hframe ⊢
          rw [hone]
          refine ⟨hframe, funext fun x => ?_⟩
          rw [write_out (by omega)]
          by_cases h₁ : frame ≤ x ∧ x < frame + 512
          · rw [write_in h₁.1 h₁.2, write_in h₁.1 h₁.2,
              Block.byteFrom_first _ _ (by omega)]
          · rw [write_out (by omega), write_out (by omega)]
      · cases h
    · next hpos =>
      cases h
      have hrb : rb = 0 := by omega
      subst hrb
      refine ⟨rfl, funext fun x => ?_⟩
      rw [write_out (by omega)]

theorem fillFrame_table {fsDev swapDev : Block} {table table' : Bitmap}
    (h : fillFrame fsDev swapDev table e m frame = some (table', m')) :
    table' = table ∨ table' = bitmapMark table e.sector := by
  unfold fillFrame at h
  simp only at h
  split at h
  · split at h
    · cases h
      exact .inl rfl
    · cases h
  · split at h
    · next hread =>
      cases h
      exact .inr (swapRead_some hread).1
    · cases h
  · cases h
    exact .inl rfl

/-- What `load_page` has done before it maps the frame: the frame holds the page, and in the
swap table at most the first bit of the entry's own slot was set. -/
theorem fillFrame_some {fsDev swapDev : Block} {table table' : Bitmap} (hwf : e.Wf)
    (h : fillFrame fsDev swapDev table e m frame = some (table', m')) :
    m' = m.write frame 4096 (backing fsDev swapDev e) ∧
      table' = if e.location = .swap then bitmapMark table e.sector else table := by
  unfold fillFrame at h
  simp only at h
  split at h
  · next hloc =>
    split at h
    · next m₁ frame₁ hread =>
      cases h
      obtain ⟨rfl, rfl⟩ := readFileSectors_some hread (by omega)
      have hle := hwf.readBytes_le hloc
      refine ⟨funext fun x => ?_, by simp [hloc]⟩
      by_cases hx : frame ≤ x ∧ x < frame + 4096
      · rw [write_in hx.1 hx.2]
        by_cases hrb : x < frame + e.readBytes
        · rw [fill_out (by omega), write_in hx.1 (by omega)]
          simp only [backing, hloc]
          rw [if_pos (by omega)]
        · rw [fill, write_in (by omega) (by omega)]
          simp only [backing, hloc]
          rw [if_neg (by omega)]
      · rw [fill_out (by omega), write_out (by omega), write_out (by omega)]
    · cases h
  · next hloc =>
    split at h
    · next hread =>
      cases h
      obtain ⟨rfl, rfl⟩ := swapRead_some hread
      have hrb := hwf.readBytes_swap hloc
      refine ⟨funext fun x => ?_, by rw [if_pos hloc]⟩
      rw [hrb, fill_out (by omega)]
      simp only [write, backing, hloc]
    · cases h
  · next hfile hswap =>
    cases h
    have hloc : e.location = .zero ∨ e.location = .mem := by
      cases hl : e.location with
      | zero => exact .inl rfl
      | mem => exact .inr rfl
      | swap => exact absurd hl hswap
      | file => exact absurd hl hfile
    have hrb := hwf.readBytes_zero hloc
    refine ⟨?_, by rw [if_neg hswap]⟩
    have hzero : backing fsDev swapDev e = fun _ => 0 := by
      funext o
      rcases hloc with hl | hl <;> simp [backing, hl]
    rw [hzero, hrb]
    rfl

end Pintos
