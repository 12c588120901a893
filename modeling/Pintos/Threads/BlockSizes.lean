import Pintos.Threads.Malloc

/-!
# The sizes of blocks (`threads/malloc.c`)

`malloc` adds the size of an arena's header to the request and rounds up to pages, and `calloc`
multiplies, all in 32 bits. `block_size` says how many bytes a block has.
-/

namespace Pintos

open Lib

namespace Heap

/-- At least `n` bytes from `b` on belong to the block `b`. -/
def HasRoom (s : Heap) (b n : Nat) : Prop := ∃ size, s.blockSize b = .ok size ∧ n ≤ size

variable {s : Heap} {live : List Nat} {arenas : List Arena}

theorem findDesc_none {size : Nat} (h : 1024 < size) : findDesc size = none := by
  cases hfind : findDesc size with
  | none => rfl
  | some x =>
    obtain ⟨hd, hle⟩ := findDesc_some hfind
    have hmax : ∀ d ∈ descs, d.blockSize ≤ 1024 := by decide
    have := hmax x.2 (List.mem_of_getElem? hd)
    omega

/-- `malloc` returns a null pointer or a block of an arena. The block has the bytes that were asked
for unless adding the size of the header wraps around. -/
theorem malloc_room {size : Nat} {ans : Option Nat} (h : HeapInv s live arenas)
    (hu : InUse live arenas) (hsize : size < 2 ^ 32)
    (hans : Answer arenas (MallocState.asks size) ans) :
    s.malloc size ans = .ok (none, s) ∨
      ∃ b s' live' arenas', ∃ a ∈ arenas', s.malloc size ans = .ok (some b, s') ∧
        HeapInv s' live' arenas' ∧ b ∈ a.blocks ∧
        (size ≤ a.capacity ↔ size ≤ 4294967284) := by
  by_cases hsmall : size ≤ 4294967284
  · rcases malloc_ok h hu hsmall hans with hnone | ⟨b, s', arenas', hsome, hal⟩
    · exact .inl hnone
    · obtain ⟨a, ha, hb, hroom⟩ := hal.room
      exact .inr ⟨b, s', b :: live, arenas', a, ha, hsome, hal.inv, hb, iff_of_true hroom hsmall⟩
  · -- the sum is between 1 and 11, and there is one page
    have hfind : findDesc size = none := findDesc_none (by omega)
    have hcnt : pageCnt size = 1 := by
      unfold pageCnt
      omega
    simp only [MallocState.asks, hfind, hcnt] at hans
    have hzero : size ≠ 0 := by omega
    cases ans with
    | none =>
      refine .inl ?_
      simp only [malloc, hzero, hfind, getPages, hcnt, if_false, Nat.one_ne_zero]
    | some p =>
      have hf : Fits arenas ⟨p, 1, none⟩ := hans.fits Nat.one_pos (by simp)
      refine .inr ⟨p + 12, _, _, _, ⟨p, 1, none⟩, List.mem_cons_self, ?_,
        bigArena_ok h (by omega) hf, List.mem_singleton.mpr rfl, ?_⟩
      · simp only [malloc, hzero, hfind, getPages, hcnt, if_false, Nat.one_ne_zero]
      · refine iff_of_false ?_ hsmall
        show ¬ size ≤ 4096 * 1 - 12
        omega

theorem blockSize_fill {a : Arena} {b n : Nat} (h : HeapInv s live arenas) (ha : a ∈ arenas)
    (hb : b ∈ a.blocks) :
    blockSize { s with mem := s.mem.fill b n 0 } b = .ok a.capacity := by
  have hwf := h.wf a ha
  have hblock := hwf.block hb
  refine blockSize_of_header hwf ((h.header a ha).frame fun x h₁ h₂ => ?_)
    (fun hi => by simp only [Arena.freeCnt, hi]) hb
  exact Mem.fill_out (by omega)

theorem capacity_lt {a : Arena} {b : Nat} (hwf : a.Wf) (hb : b ∈ a.blocks) :
    a.capacity < 2 ^ 32 := by
  have hblock := hwf.block hb
  have hbound := hwf.bounded
  have hpos := hwf.pos
  omega

theorem hasRoom_iff {b n size : Nat} (h : s.blockSize b = .ok size) : s.HasRoom b n ↔ n ≤ size := by
  constructor
  · rintro ⟨size', hsize, hle⟩
    rw [h] at hsize
    cases hsize
    exact hle
  · exact fun hle => ⟨size, h, hle⟩

/-- `calloc` returns a null pointer or a block of an arena that has been cleared, or `memset` gets past
the end of memory. A block has less than 2^32 bytes, so it has those that were asked for only if the
product has not wrapped around. -/
theorem calloc_room {a b : Nat} {ans : Option Nat} (h : HeapInv s live arenas)
    (hu : InUse live arenas) (hans : Answer arenas (MallocState.asks (a * b % 2 ^ 32)) ans) :
    s.calloc a b ans = .ok (none, s) ∨
      s.calloc a b ans = .error .fault ∧ 2 ^ 32 - 12 < a * b % 2 ^ 32 ∨
      ∃ p s', s.calloc a b ans = .ok (some p, s') ∧
        (s'.HasRoom p (a * b) ↔ a * b ≤ 2 ^ 32 - 12) ∧
        ∀ j < a * b % 2 ^ 32, s'.mem (p + j) = 0 := by
  by_cases hover : a * b % 2 ^ 32 < a ∨ a * b % 2 ^ 32 < b
  · exact .inl (by simp only [calloc, if_pos hover])
  have hlt : a * b % 2 ^ 32 < 2 ^ 32 := Nat.mod_lt _ (by decide)
  rcases malloc_room h hu hlt hans with
    hnone | ⟨p, s', live', arenas', ar, har, hsome, hinv, hp, hroom⟩
  · refine .inl ?_
    simp only [calloc, if_neg hover, hnone]
    rfl
  · have hblock := (hinv.wf ar har).block hp
    have hbound := (hinv.wf ar har).bounded
    refine .inr ?_
    by_cases hfits : a * b % 2 ^ 32 ≤ 4294967284
    · have hroom := hroom.mpr hfits
      have hset : s'.memset p (a * b % 2 ^ 32) =
          .ok { s' with mem := s'.mem.fill p (a * b % 2 ^ 32) 0 } := if_pos (by omega)
      refine .inr ⟨p, { s' with mem := s'.mem.fill p (a * b % 2 ^ 32) 0 }, ?_, ?_,
        fun j hj => Mem.fill_add hj⟩
      · simp only [calloc, if_neg hover, hsome, bind, Except.bind, hset]
        rfl
      · rw [hasRoom_iff (blockSize_fill hinv har hp)]
        have hcap := capacity_lt (hinv.wf ar har) hp
        omega
    · have hset : s'.memset p (a * b % 2 ^ 32) = .error .fault := if_neg (by omega)
      refine .inl ⟨?_, by omega⟩
      simp only [calloc, if_neg hover, hsome, bind, Except.bind, hset]

end Heap

/-- **When a block is big enough.** `malloc` and `calloc` of 32-bit sizes return, unless the product of
`calloc` is left with more than 2^32 - 12 after it has wrapped around and `memset` faults. A block that
they return has the bytes that were asked for, and those of `calloc` are zero, exactly if these are at
most 2^32 - 12, where the product counts as it is. -/
theorem block_big_enough_iff {s : MallocState} (hi : MallocInv s) :
    (∀ size ans, size < 2 ^ 32 → s.fresh (MallocState.asks size) ans = true →
      ∃ r s', s.toHeap.malloc size ans = .ok (r, s') ∧
        ∀ b, r = some b → (s'.HasRoom b size ↔ size ≤ 2 ^ 32 - 12)) ∧
    ∀ a b ans, a < 2 ^ 32 → b < 2 ^ 32 → s.fresh (MallocState.asks (a * b % 2 ^ 32)) ans = true →
      s.toHeap.calloc a b ans = .error .fault ∧ 2 ^ 32 - 12 < a * b % 2 ^ 32 ∨
      ∃ r s', s.toHeap.calloc a b ans = .ok (r, s') ∧
        ∀ p, r = some p → ((s'.HasRoom p (a * b) ∧ ∀ j < a * b, s'.mem (p + j) = 0) ↔
          a * b ≤ 2 ^ 32 - 12) := by
  refine ⟨fun size ans hsize hfresh => ?_, fun a b ans _ _ hfresh => ?_⟩
  · rcases Heap.malloc_room hi.heap hi.inUse hsize (hi.answer hfresh) with
      hnone | ⟨b, s', live', arenas', a, ha, hsome, hinv, hb, hroom⟩
    · exact ⟨none, _, hnone, nofun⟩
    · refine ⟨some b, s', hsome, ?_⟩
      rintro _ ⟨⟩
      exact (Heap.hasRoom_iff (Heap.blockSize_ok hinv ha hb)).trans hroom
  · rcases Heap.calloc_room hi.heap hi.inUse (hi.answer hfresh) with
      hnone | hfault | ⟨p, s', hsome, hroom, hclear⟩
    · exact .inr ⟨none, _, hnone, nofun⟩
    · exact .inl hfault
    · refine .inr ⟨some p, s', hsome, ?_⟩
      rintro _ ⟨⟩
      refine ⟨fun h => hroom.mp h.1, fun hle => ⟨hroom.mpr hle, ?_⟩⟩
      rw [Nat.mod_eq_of_lt (by omega)] at hclear
      exact hclear

/-- A fresh heap, which gets the page at 0xc0100000. -/
theorem block_big_enough_fresh :
    (∃ r s', (MallocState.init fun _ => 0).toHeap.malloc 5000 (some 0xc0100000) = .ok (r, s') ∧
      ∀ b, r = some b → (s'.HasRoom b 5000 ↔ 5000 ≤ 2 ^ 32 - 12)) ∧
    ∃ r s', (MallocState.init fun _ => 0).toHeap.calloc 3 7 (some 0xc0100000) = .ok (r, s') ∧
      ∀ p, r = some p → ((s'.HasRoom p 21 ∧ ∀ j < 21, s'.mem (p + j) = 0) ↔ 21 ≤ 2 ^ 32 - 12) :=
  have hi : MallocInv (MallocState.init fun _ => 0) := .of_heap (.init _) nofun
  ⟨(block_big_enough_iff hi).1 5000 _ (by decide) (by decide),
    ((block_big_enough_iff hi).2 3 7 _ (by decide) (by decide) (by decide)).resolve_left
      fun h => absurd h.2 (by decide)⟩

/-- `malloc (0xfffffff5)` returns a block of 4084 bytes, and `calloc (65537, 65537)`, the product of
which is 2^32 + 131073, one of 33 pages. -/
theorem block_too_small :
    (∃ s', (MallocState.init fun _ => 0).toHeap.malloc 0xfffffff5 (some 0xc0100000) =
        .ok (some 0xc010000c, s') ∧ s'.blockSize 0xc010000c = .ok 4084) ∧
    ∃ s', (MallocState.init fun _ => 0).toHeap.calloc 65537 65537 (some 0xc0100000) =
        .ok (some 0xc010000c, s') ∧ s'.blockSize 0xc010000c = .ok 135156 :=
  ⟨⟨_, rfl, by decide +kernel⟩, _, rfl, by decide +kernel⟩

end Pintos
