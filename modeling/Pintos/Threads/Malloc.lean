import Mathlib.Data.List.Nodup
import Mathlib.Data.List.Pairwise
import Pintos.Lib.Bytes
import Pintos.Lib.Permits
import Pintos.Lib.Runs

/-!
# `malloc`, `calloc`, `realloc` and `free` (`threads/malloc.c`)

The headers of arenas lie in memory: `magic`, `desc` and `free_cnt` at the start of their page. A
free list is a list of block addresses. What palloc answers is part of each call; `held` has the
pages that palloc has given and not got back.
-/

namespace Pintos

open Lib Function List Mem

/-! ## Descriptors and arenas -/

/-- `struct desc` without its list and lock. -/
structure Desc where
  blockSize : Nat
  blocksPerArena : Nat
deriving DecidableEq

/-- The loop of `malloc_init`; `sizeof (struct arena)` is 12. -/
def mallocInit : Nat → Nat → List Desc
  | 0, _ => []
  | fuel + 1, blockSize =>
    if blockSize < 4096 / 2 then
      ⟨blockSize, (4096 - 12) / blockSize⟩ :: mallocInit fuel (blockSize * 2)
    else []

/-- `descs`: 16 to 1024 bytes. -/
def descs : List Desc := mallocInit 10 16

/-- The search of `malloc` for a descriptor. -/
def findDesc (size : Nat) : Option (Nat × Desc) :=
  match descs.zipIdx.find? fun x => size ≤ x.1.blockSize with
  | some (d, i) => some (i, d)
  | none => none

/-- What can go wrong: the assertions, and accesses through wild pointers or past the end of memory. -/
inductive MallocPanic
  | nullArena
  | magic
  | alignment
  | wildDesc
  | index
  | freeCnt
  | list
  | palloc
  | fault
deriving DecidableEq

/-- `ARENA_MAGIC`. -/
def arenaMagic : Nat := 0x9a548eed

/-- `malloc`'s view of memory. `freeList i` is that of `descs[i]`. -/
structure Heap where
  mem : Mem
  freeList : Nat → List Nat
  held : List (Nat × Nat)

/-- The three assignments to a new arena. The pointer `desc` is 0 for null and `i + 1` for
`&descs[i]`. -/
def setArena (m : Mem) (a desc freeCnt : Nat) : Mem :=
  ((m.setWord a arenaMagic).setWord (a + 4) desc).setWord (a + 8) freeCnt

/-- `a->desc`. -/
def arenaDesc (m : Mem) (a : Nat) : Except MallocPanic (Option (Nat × Desc)) :=
  match m.word (a + 4) with
  | 0 => .ok none
  | i + 1 =>
    match descs[i]? with
    | some d => .ok (some (i, d))
    | none => .error .wildDesc

/-- `block_to_arena`. -/
def blockToArena (m : Mem) (b : Nat) : Except MallocPanic Nat := do
  let a := b - b % 4096
  if a = 0 then throw .nullArena
  if m.word a ≠ arenaMagic then throw .magic
  match ← arenaDesc m a with
  | some (_, d) => if (b % 4096 + 2 ^ 32 - 12) % 2 ^ 32 % d.blockSize ≠ 0 then throw .alignment
  | none => if b % 4096 ≠ 12 then throw .alignment
  return a

/-- `arena_to_block`. -/
def arenaToBlock (m : Mem) (a idx : Nat) : Except MallocPanic Nat := do
  if a = 0 then throw .nullArena
  if m.word a ≠ arenaMagic then throw .magic
  match ← arenaDesc m a with
  | some (_, d) =>
    if idx < d.blocksPerArena then return a + 12 + idx * d.blockSize else throw .index
  | none => throw .wildDesc

namespace Heap

/-- `palloc_get_multiple`, with its answer `ans` where it looks for pages. -/
def getPages (s : Heap) (n : Nat) (ans : Option Nat) : Option Nat × Heap :=
  if n = 0 then (none, s)
  else
    match ans with
    | some p => (some p, { s with held := (p, n) :: s.held })
    | none => (none, s)

/-- `palloc_free_multiple`. -/
def freePages (s : Heap) (p n : Nat) : Except MallocPanic Heap :=
  if (p, n) ∈ s.held then
    .ok { s with mem := s.mem.fill p (4096 * n) 0xcc, held := s.held.filter (· ≠ (p, n)) }
  else .error .palloc

def setFreeList (s : Heap) (i : Nat) (l : List Nat) : Heap :=
  { s with freeList := update s.freeList i l }

@[simp] theorem setFreeList_self (s : Heap) (i : Nat) (l : List Nat) :
    (s.setFreeList i l).freeList i = l := update_self ..

theorem setFreeList_of_ne (s : Heap) {i j : Nat} (l : List Nat) (h : j ≠ i) :
    (s.setFreeList i l).freeList j = s.freeList j := update_of_ne h ..

/-- `malloc` makes an arena of `descs[i]`, whose blocks go to the free list. -/
def newArena (s : Heap) (i : Nat) (d : Desc) (ans : Option Nat) :
    Except MallocPanic (Option Heap) :=
  match s.getPages 1 ans with
  | (none, _) => .ok none
  | (some a, s) => do
      let m := setArena s.mem a (i + 1) d.blocksPerArena
      let blocks ← (List.range d.blocksPerArena).mapM (arenaToBlock m a)
      return some ({ s with mem := m }.setFreeList i (s.freeList i ++ blocks))

/-- The last part of `malloc`. -/
def popBlock (s : Heap) (i : Nat) : Except MallocPanic (Nat × Heap) :=
  match s.freeList i with
  | [] => .error .list
  | b :: rest => do
      let a ← blockToArena s.mem b
      return (b, { s with mem := s.mem.setWord (a + 8) (s.mem.word (a + 8) + (2 ^ 32 - 1)) }.setFreeList
        i rest)

/-- `page_cnt` for a big block, in 32 bits. -/
def pageCnt (size : Nat) : Nat := ((size + 12) % 2 ^ 32 + 4095) % 2 ^ 32 / 4096

/-- `malloc`. -/
def malloc (s : Heap) (size : Nat) (ans : Option Nat) : Except MallocPanic (Option Nat × Heap) :=
  if size = 0 then .ok (none, s)
  else
    match findDesc size with
    | none =>
      match s.getPages (pageCnt size) ans with
      | (none, s) => .ok (none, s)
      | (some a, s) => .ok (some (a + 12), { s with mem := setArena s.mem a 0 (pageCnt size) })
    | some (i, d) => do
        if s.freeList i = [] then
          match ← s.newArena i d ans with
          | none => return (none, s)
          | some s =>
            let (b, s) ← s.popBlock i
            return (some b, s)
        else
          let (b, s) ← s.popBlock i
          return (some b, s)

/-- `memset` to zero. What lies past the end of memory is not mapped. -/
def memset (s : Heap) (p n : Nat) : Except MallocPanic Heap :=
  if p + n ≤ 2 ^ 32 then .ok { s with mem := s.mem.fill p n 0 } else .error .fault

/-- `calloc`, with the product in 32 bits. -/
def calloc (s : Heap) (a b : Nat) (ans : Option Nat) : Except MallocPanic (Option Nat × Heap) :=
  let size := a * b % 2 ^ 32
  if size < a ∨ size < b then .ok (none, s)
  else do
    match ← s.malloc size ans with
    | (some p, s) =>
      let s ← s.memset p size
      return (some p, s)
    | (none, s) => return (none, s)

/-- `block_size`. -/
def blockSize (s : Heap) (b : Nat) : Except MallocPanic Nat := do
  let a ← blockToArena s.mem b
  match ← arenaDesc s.mem a with
  | some (_, d) => return d.blockSize
  | none => return (4096 * s.mem.word (a + 8) + 2 ^ 32 - b % 4096) % 2 ^ 32

/-- `list_remove`, of a block that has to be on the list. -/
def listRemove (l : List Nat) (b : Nat) : Except MallocPanic (List Nat) :=
  if b ∈ l then .ok (l.erase b) else .error .list

/-- The loop of `free` over the blocks of an arena. -/
def removeBlocks (m : Mem) (a : Nat) : List Nat → List Nat → Except MallocPanic (List Nat)
  | [], l => .ok l
  | idx :: rest, l => do
      let b ← arenaToBlock m a idx
      let l ← listRemove l b
      removeBlocks m a rest l

/-- `free` of a block that is not null. -/
def freeBlock (s : Heap) (b : Nat) : Except MallocPanic Heap := do
  let a ← blockToArena s.mem b
  match ← arenaDesc s.mem a with
  | some (i, d) =>
    let m := s.mem.fill b d.blockSize 0xcc
    let freeCnt := (m.word (a + 8) + 1) % 2 ^ 32
    let s := { s with mem := m.setWord (a + 8) freeCnt }.setFreeList i (b :: s.freeList i)
    if d.blocksPerArena ≤ freeCnt then
      if freeCnt ≠ d.blocksPerArena then throw .freeCnt
      let l ← removeBlocks s.mem a (List.range d.blocksPerArena) (s.freeList i)
      (s.setFreeList i l).freePages a 1
    else return s
  | none => s.freePages a (s.mem.word (a + 8))

/-- `free`. -/
def free (s : Heap) : Option Nat → Except MallocPanic Heap
  | some b => s.freeBlock b
  | none => .ok s

/-- `realloc`. -/
def realloc (s : Heap) (old : Option Nat) (size : Nat) (ans : Option Nat) :
    Except MallocPanic (Option Nat × Heap) :=
  if size = 0 then do
    let s ← s.free old
    return (none, s)
  else do
    let (new, s) ← s.malloc size ans
    match old, new with
    | some o, some n =>
      let oldSize ← s.blockSize o
      let s := { s with mem := s.mem.write n (min size oldSize) fun j => s.mem (o + j) }
      let s ← s.freeBlock o
      return (some n, s)
    | _, _ => return (new, s)

end Heap

/-! ## Calls -/

/-- The heap and the blocks that callers have. -/
structure MallocState extends Heap where
  live : List Nat

open MallocState

inductive MallocOp
  | malloc (size : Nat) (ans : Option Nat)
  | calloc (a b : Nat) (ans : Option Nat)
  | realloc (old : Option Nat) (size : Nat) (ans : Option Nat)
  | free (p : Option Nat)
  /-- A byte is stored in a live block, or in a page that `malloc` does not hold. -/
  | store (x : Nat) (byte : UInt8)

/-- An arena: its pages, and which descriptor it belongs to. -/
structure Arena where
  page : Nat
  pages : Nat
  desc : Option Nat
deriving DecidableEq

namespace Arena

/-- The addresses of the blocks. -/
def blocks (a : Arena) : List Nat :=
  match a.desc with
  | none => [a.page + 12]
  | some i =>
    match descs[i]? with
    | some d => (List.range d.blocksPerArena).map fun k => a.page + 12 + k * d.blockSize
    | none => []

/-- The bytes that each block has. -/
def capacity (a : Arena) : Nat :=
  match a.desc with
  | none => 4096 * a.pages - 12
  | some i => (descs[i]?.map Desc.blockSize).getD 0

/-- `x` is in the pages of the arena. -/
def covers (a : Arena) (x : Nat) : Bool := decide (a.page ≤ x ∧ x < a.page + 4096 * a.pages)

end Arena

/-- The arenas that are held, as their headers describe them. -/
def Heap.arenas (s : Heap) : List Arena :=
  s.held.map fun g =>
    ⟨g.1, g.2, match s.mem.word (g.1 + 4) with
      | 0 => none
      | i + 1 => some i⟩

namespace MallocState

/-- The pages that a call of `malloc (size)` asks palloc for. -/
def asks (size : Nat) : Nat :=
  match findDesc size with
  | some _ => 1
  | none => Heap.pageCnt size

/-- palloc returns pages that are free: none of those that are held. -/
def fresh (s : MallocState) (n : Nat) : Option Nat → Bool
  | some p =>
    decide (p % 4096 = 0 ∧ 0 < p ∧ p + 4096 * n ≤ 2 ^ 32) &&
      s.held.all fun g => decide (g.1 + 4096 * g.2 ≤ p ∨ p + 4096 * n ≤ g.1)
  | none => true

/-- The address belongs to a caller: it is in a live block, or in no arena. -/
def writable (s : MallocState) (x : Nat) : Bool :=
  s.arenas.all (fun a => !a.covers x) ||
    s.arenas.any fun a => a.blocks.any fun b => decide (b ∈ s.live ∧ b ≤ x ∧ x < b + a.capacity)

/-- Calls are given live blocks or null, and `malloc` and `realloc` at most 2^31 bytes. -/
def enabled (s : MallocState) : MallocOp → Bool
  | .malloc size ans => decide (size ≤ 2 ^ 31) && s.fresh (asks size) ans
  | .calloc a b ans =>
    decide (a < 2 ^ 32 ∧ b < 2 ^ 32) && s.fresh (asks (a * b % 2 ^ 32)) ans
  | .realloc old size ans =>
    decide (size ≤ 2 ^ 31) && s.fresh (asks size) ans && old.all fun b => decide (b ∈ s.live)
  | .free p => p.all fun b => decide (b ∈ s.live)
  | .store x _ => s.writable x

/-- A block has been handed out. -/
def give (live : List Nat) : Option Nat → List Nat
  | some b => b :: live
  | none => live

/-- A block has been taken back. -/
def drop (live : List Nat) : Option Nat → List Nat
  | some b => live.filter (· ≠ b)
  | none => live

/-- The call, and which blocks are live afterwards. -/
def exec (s : MallocState) : MallocOp → Except MallocPanic (Option Nat × MallocState)
  | .malloc size ans => do
      let (r, h) ← s.toHeap.malloc size ans
      return (r, ⟨h, give s.live r⟩)
  | .calloc a b ans => do
      let (r, h) ← s.toHeap.calloc a b ans
      return (r, ⟨h, give s.live r⟩)
  | .realloc old size ans => do
      let (r, h) ← s.toHeap.realloc old size ans
      let left := if size = 0 ∨ r.isSome then drop s.live old else s.live
      return (r, ⟨h, give left r⟩)
  | .free p => do
      let h ← s.toHeap.free p
      return (none, ⟨h, drop s.live p⟩)
  | .store x byte => .ok (none, { s with mem := update s.mem x byte })

def step (s : MallocState) (op : MallocOp) : Option MallocState :=
  if s.enabled op then (s.exec op).toOption.map Prod.snd else none

/-- After `malloc_init`. -/
def init (m : Mem) : MallocState := ⟨⟨m, fun _ => [], []⟩, []⟩

end MallocState

/-! ## Blocks lie in their arenas -/

theorem descs_fit : ∀ d ∈ descs,
    0 < d.blocksPerArena ∧ 0 < d.blockSize ∧ 12 + d.blocksPerArena * d.blockSize ≤ 4096 := by
  decide

theorem findDesc_some {size i : Nat} {d : Desc} (h : findDesc size = some (i, d)) :
    descs[i]? = some d ∧ size ≤ d.blockSize := by
  unfold findDesc at h
  split at h
  · next d' i' hfind =>
    cases h
    have hmem := mem_of_find?_eq_some hfind
    have hle := List.find?_some hfind
    exact ⟨mem_zipIdx_iff_getElem?.mp hmem, by simpa using hle⟩
  · cases h

namespace Arena

/-- The address of an arena in memory, and its descriptor. -/
structure Wf (a : Arena) : Prop where
  aligned : a.page % 4096 = 0
  pos : 0 < a.page
  some : 0 < a.pages
  bounded : a.page + 4096 * a.pages ≤ 2 ^ 32
  small : ∀ i, a.desc = Option.some i → a.pages = 1 ∧ ∃ d, descs[i]? = Option.some d

/-- Two arenas have no page in common. -/
def Apart (a b : Arena) : Prop :=
  a.page + 4096 * a.pages ≤ b.page ∨ b.page + 4096 * b.pages ≤ a.page

instance : Std.Symm Apart := ⟨fun _ _ h => Or.symm h⟩

/-- `desc` as it lies in memory. -/
def descWord (a : Arena) : Nat :=
  match a.desc with
  | none => 0
  | some i => i + 1

/-- What `free_cnt` stands for: the pages of a big block, or the blocks that are not live. -/
def freeCnt (a : Arena) (live : List Nat) : Nat :=
  match a.desc with
  | none => a.pages
  | some _ => a.blocks.countP fun b => decide (b ∉ live)

/-- The header in memory. -/
structure Header (m : Mem) (a : Arena) (n : Nat) : Prop where
  magic : m.word a.page = arenaMagic
  desc : m.word (a.page + 4) = a.descWord
  count : m.word (a.page + 8) = n

variable {a : Arena} {b i n : Nat} {d : Desc} {m m' : Mem}

theorem mem_blocks_some (hi : a.desc = some i) (hd : descs[i]? = some d) :
    b ∈ a.blocks ↔ ∃ k < d.blocksPerArena, b = a.page + 12 + k * d.blockSize := by
  simp only [blocks, hi, hd, mem_map, mem_range]
  exact ⟨fun ⟨k, hk, hb⟩ => ⟨k, hk, hb.symm⟩, fun ⟨k, hk, hb⟩ => ⟨k, hk, hb.symm⟩⟩

theorem mem_blocks_none (hi : a.desc = none) : b ∈ a.blocks ↔ b = a.page + 12 := by
  simp only [blocks, hi, mem_singleton]

theorem Wf.block (h : a.Wf) (hb : b ∈ a.blocks) :
    a.page + 12 ≤ b ∧ b < a.page + 4096 ∧ 0 < a.capacity ∧
      b + a.capacity ≤ a.page + 4096 * a.pages := by
  have hpages := h.some
  cases hi : a.desc with
  | none =>
    rw [mem_blocks_none hi] at hb
    simp only [capacity, hi]
    omega
  | some i =>
    obtain ⟨hone, d, hd⟩ := h.small i hi
    obtain ⟨k, hk, rfl⟩ := (mem_blocks_some hi hd).mp hb
    obtain ⟨-, hsize, hfit⟩ := descs_fit d (mem_of_getElem? hd)
    have hle : (k + 1) * d.blockSize ≤ d.blocksPerArena * d.blockSize :=
      Nat.mul_le_mul_right _ hk
    rw [Nat.add_mul, Nat.one_mul] at hle
    simp only [capacity, hi, hd, Option.map_some, Option.getD_some]
    omega

theorem Wf.blocks_apart (h : a.Wf) {b' : Nat} (hb : b ∈ a.blocks) (hb' : b' ∈ a.blocks)
    (hne : b ≠ b') : b + a.capacity ≤ b' ∨ b' + a.capacity ≤ b := by
  cases hi : a.desc with
  | none =>
    rw [mem_blocks_none hi] at hb hb'
    exact absurd (hb.trans hb'.symm) hne
  | some i =>
    obtain ⟨-, d, hd⟩ := h.small i hi
    obtain ⟨k, -, rfl⟩ := (mem_blocks_some hi hd).mp hb
    obtain ⟨k', -, rfl⟩ := (mem_blocks_some hi hd).mp hb'
    simp only [capacity, hi, hd, Option.map_some, Option.getD_some]
    have hk : k ≠ k' := fun heq => hne (heq ▸ rfl)
    rcases Nat.lt_or_gt_of_ne hk with hlt | hlt
    · have hle : (k + 1) * d.blockSize ≤ k' * d.blockSize := Nat.mul_le_mul_right _ hlt
      rw [Nat.add_mul, Nat.one_mul] at hle
      omega
    · have hle : (k' + 1) * d.blockSize ≤ k * d.blockSize := Nat.mul_le_mul_right _ hlt
      rw [Nat.add_mul, Nat.one_mul] at hle
      omega

theorem Wf.blocks_nodup (h : a.Wf) : a.blocks.Nodup := by
  cases hi : a.desc with
  | none => simp [blocks, hi]
  | some i =>
    obtain ⟨-, d, hd⟩ := h.small i hi
    obtain ⟨-, hsize, -⟩ := descs_fit d (mem_of_getElem? hd)
    simp only [blocks, hi, hd]
    refine List.Nodup.map (fun k k' heq => ?_) nodup_range
    have heq : k * d.blockSize = k' * d.blockSize := Nat.add_left_cancel heq
    exact Nat.eq_of_mul_eq_mul_right hsize heq

theorem Wf.page_of_block (h : a.Wf) (hb : b ∈ a.blocks) : b - b % 4096 = a.page := by
  have := h.block hb
  have := h.aligned
  omega

/-! ## Headers -/

theorem Header.frame (h : Header m a n)
    (hsame : ∀ x, a.page ≤ x → x < a.page + 12 → m' x = m x) : Header m' a n where
  magic := (word_congr fun i hi => hsame _ (by omega) (by omega)).trans h.magic
  desc := (word_congr fun i hi => hsame _ (by omega) (by omega)).trans h.desc
  count := (word_congr fun i hi => hsame _ (by omega) (by omega)).trans h.count

theorem Header.setCount (h : Header m a n) (n' : Nat) :
    Header (m.setWord (a.page + 8) n') a (n' % 4294967296) where
  magic := (word_congr fun i hi => setWord_out (by omega)).trans h.magic
  desc := (word_congr fun i hi => setWord_out (by omega)).trans h.desc
  count := word_setWord

theorem header_setArena (m : Mem) (a : Arena) (n : Nat) (hi : a.descWord < 4294967296) :
    Header (setArena m a.page a.descWord n) a (n % 4294967296) where
  magic := by
    have hw : (m.setWord a.page arenaMagic).word a.page = arenaMagic := word_setWord
    refine (word_congr fun i hi => ?_).trans hw
    rw [setArena, setWord_out (by omega), setWord_out (by omega)]
  desc := by
    refine (word_congr fun i hi => setWord_out (by omega)).trans ?_
    rw [word_setWord, Nat.mod_eq_of_lt hi]
  count := word_setWord

theorem setArena_out {p desc x : Nat} (h : x < p ∨ p + 12 ≤ x) : setArena m p desc n x = m x := by
  rw [setArena, setWord_out (by omega), setWord_out (by omega),
    setWord_out (by omega)]

theorem Header.arenaDesc_none (h : Header m a n) (hi : a.desc = none) :
    arenaDesc m a.page = .ok none := by
  have hw := h.desc
  simp only [descWord, hi] at hw
  simp only [arenaDesc, hw]

theorem Header.arenaDesc_some (h : Header m a n) (hi : a.desc = some i) (hd : descs[i]? = some d) :
    arenaDesc m a.page = .ok (some (i, d)) := by
  have hw := h.desc
  simp only [descWord, hi] at hw
  simp only [arenaDesc, hw, hd]

theorem Header.blockToArena (h : Header m a n) (hwf : a.Wf) (hb : b ∈ a.blocks) :
    blockToArena m b = .ok a.page := by
  have hpage := hwf.page_of_block hb
  have hpos := hwf.pos
  unfold Pintos.blockToArena
  simp only [hpage, if_neg (Nat.pos_iff_ne_zero.mp hpos), h.magic, ne_eq, not_true_eq_false,
    if_false]
  cases hi : a.desc with
  | none =>
    rw [mem_blocks_none hi] at hb
    have hofs : b % 4096 = 12 := by omega
    simp only [h.arenaDesc_none hi, hofs]
    rfl
  | some i =>
    obtain ⟨-, d, hd⟩ := hwf.small i hi
    have hin := hwf.block hb
    have hal := hwf.aligned
    obtain ⟨k, -, hk⟩ := (mem_blocks_some hi hd).mp hb
    have hofs : (b % 4096 + 2 ^ 32 - 12) % 2 ^ 32 = k * d.blockSize := by omega
    have hz : k * d.blockSize % d.blockSize = 0 := Nat.mul_mod_left _ _
    simp only [h.arenaDesc_some hi hd, hofs, bind, Except.bind, hz, not_true_eq_false, if_false]
    rfl

theorem Header.arenaToBlock (h : Header m a n) (hwf : a.Wf) (hi : a.desc = some i)
    (hd : descs[i]? = some d) {k : Nat} (hk : k < d.blocksPerArena) :
    arenaToBlock m a.page k = .ok (a.page + 12 + k * d.blockSize) := by
  unfold Pintos.arenaToBlock
  simp only [if_neg (Nat.pos_iff_ne_zero.mp hwf.pos), h.magic, ne_eq, not_true_eq_false, if_false,
    h.arenaDesc_some hi hd]
  exact if_pos hk

end Arena

/-! ## The invariant -/

/-- The arenas of the heap: their headers are in memory, and the free lists have the blocks that
are not live. -/
structure HeapInv (s : Heap) (live : List Nat) (arenas : List Arena) : Prop where
  held : s.held = arenas.map fun a => (a.page, a.pages)
  wf : ∀ a ∈ arenas, a.Wf
  apart : arenas.Pairwise Arena.Apart
  header : ∀ a ∈ arenas, a.Header s.mem (a.freeCnt live)
  free_iff : ∀ i b, b ∈ s.freeList i ↔ ∃ a ∈ arenas, a.desc = some i ∧ b ∈ a.blocks ∧ b ∉ live
  nodup : ∀ i, (s.freeList i).Nodup
  live_in : ∀ b ∈ live, ∃ a ∈ arenas, b ∈ a.blocks

/-- Every arena has a live block. -/
def InUse (live : List Nat) (arenas : List Arena) : Prop :=
  ∀ a ∈ arenas, ∃ b ∈ a.blocks, b ∈ live

/-- The address is in no header. -/
def OffHeaders (arenas : List Arena) (x : Nat) : Prop :=
  ∀ a ∈ arenas, x < a.page ∨ a.page + 12 ≤ x

namespace HeapInv

variable {s : Heap} {live : List Nat} {arenas : List Arena} {a a' : Arena} {b b' i n : Nat}
  {d : Desc}

theorem init (m : Mem) : HeapInv ⟨m, fun _ => [], []⟩ [] [] where
  held := rfl
  wf := nofun
  apart := .nil
  header := nofun
  free_iff i b := by simp
  nodup i := nodup_nil
  live_in := nofun

section

variable (h : HeapInv s live arenas) (ha : a ∈ arenas) (ha' : a' ∈ arenas)
include h ha ha'

theorem apart_of_ne (hne : a ≠ a') : a.Apart a' := h.apart.forall ha ha' hne

theorem arena_unique (hb : b ∈ a.blocks) (hb' : b ∈ a'.blocks) : a = a' := by
  by_contra hne
  have hap := h.apart_of_ne ha ha' hne
  have h₁ := (h.wf a ha).block hb
  have h₂ := (h.wf a' ha').block hb'
  have h₃ := (h.wf a ha).some
  have h₄ := (h.wf a' ha').some
  unfold Arena.Apart at hap
  omega

theorem blocks_apart (hb : b ∈ a.blocks) (hb' : b' ∈ a'.blocks) (hne : b ≠ b') :
    b + a.capacity ≤ b' ∨ b' + a'.capacity ≤ b := by
  by_cases haa : a = a'
  · subst haa
    exact (h.wf a ha).blocks_apart hb hb' hne
  · have hap := h.apart_of_ne ha ha' haa
    have h₁ := (h.wf a ha).block hb
    have h₂ := (h.wf a' ha').block hb'
    unfold Arena.Apart at hap
    omega

theorem block_off_header (hb : b ∈ a.blocks) : b + a.capacity ≤ a'.page ∨ a'.page + 12 ≤ b := by
  have h₁ := (h.wf a ha).block hb
  by_cases haa : a = a'
  · subst haa
    omega
  · have hap := h.apart_of_ne ha ha' haa
    have h₂ := (h.wf a' ha').some
    unfold Arena.Apart at hap
    omega

end

theorem offHeaders (h : HeapInv s live arenas) (ha : a ∈ arenas) (hb : b ∈ a.blocks) {x : Nat}
    (hx : b ≤ x ∧ x < b + a.capacity) : OffHeaders arenas x := by
  intro a' ha'
  have := h.block_off_header ha ha' hb
  omega

theorem setMem (h : HeapInv s live arenas) {m : Mem}
    (hm : ∀ x, ¬ OffHeaders arenas x → m x = s.mem x) :
    HeapInv { s with mem := m } live arenas :=
  { h with
    header := fun a ha => (h.header a ha).frame fun x h₁ h₂ =>
      hm x fun hoff => by have := hoff a ha; omega }

theorem arenas_eq (h : HeapInv s live arenas) : s.arenas = arenas := by
  unfold Heap.arenas
  rw [h.held, map_map]
  conv_rhs => rw [← map_id arenas]
  refine map_congr_left fun a ha => ?_
  have hw := (h.header a ha).desc
  simp only [Function.comp_apply, hw, Arena.descWord]
  cases a with
  | mk page pages desc =>
    cases desc with
    | none => rfl
    | some i => rfl

theorem freeCnt_congr {live' : List Nat} (h : ∀ x ∈ a.blocks, x ∈ live' ↔ x ∈ live) :
    a.freeCnt live' = a.freeCnt live := by
  unfold Arena.freeCnt
  split
  · rfl
  · exact countP_congr fun x hx => by simp [h x hx]

theorem freeCnt_cons_other (h : HeapInv s live arenas) (ha : a ∈ arenas) (ha' : a' ∈ arenas)
    (hb : b ∈ a.blocks) (hne : a' ≠ a) : a'.freeCnt (b :: live) = a'.freeCnt live := by
  refine freeCnt_congr fun x hx => ?_
  have hxb : x ≠ b := fun heq => hne (h.arena_unique ha' ha hx (heq ▸ hb))
  simp [hxb]

theorem freeCnt_cons (hwf : a.Wf) (hi : a.desc = some i) (hb : b ∈ a.blocks) (hlive : b ∉ live) :
    a.freeCnt (b :: live) + 1 = a.freeCnt live := by
  have hcount := countP_change (p := fun x => decide (x ∉ live))
    (q := fun x => decide (x ∉ b :: live)) hwf.blocks_nodup hb (by
      intro y _ hy
      simp [hy])
  simp only [Arena.freeCnt, hi]
  simpa [hlive] using hcount

theorem freeCnt_le (live : List Nat) (hi : a.desc = some i) (hd : descs[i]? = some d) :
    a.freeCnt live ≤ d.blocksPerArena := by
  simp only [Arena.freeCnt, hi]
  refine countP_le_length.trans ?_
  simp [Arena.blocks, hi, hd]

end HeapInv

/-! ## `malloc` -/

namespace Heap

variable {s : Heap} {live : List Nat} {arenas : List Arena} {i : Nat} {d : Desc}

theorem popBlock_ok (h : HeapInv s live arenas) (hne : s.freeList i ≠ []) :
    ∃ a ∈ arenas, ∃ b ∈ a.blocks, ∃ s', a.desc = some i ∧ b ∉ live ∧ s.popBlock i = .ok (b, s') ∧
      HeapInv s' (b :: live) arenas ∧ ∀ x, OffHeaders arenas x → s'.mem x = s.mem x := by
  cases hfl : s.freeList i with
  | nil => exact absurd hfl hne
  | cons b rest =>
    obtain ⟨a, ha, hi, hb, hlive⟩ := (h.free_iff i b).mp (by rw [hfl]; exact mem_cons_self)
    have hwf := h.wf a ha
    have hhead := h.header a ha
    have hcnt := HeapInv.freeCnt_cons hwf hi hb hlive
    have hlt := word_lt s.mem (a.page + 8)
    rw [hhead.count] at hlt
    have hnd := h.nodup i
    rw [hfl, nodup_cons] at hnd
    refine ⟨a, ha, b, hb, { s with mem := s.mem.setWord (a.page + 8) (s.mem.word (a.page + 8) +
      (2 ^ 32 - 1)) }.setFreeList i rest, hi, hlive, ?_, ?_, ?_⟩
    · simp only [popBlock, hfl, hhead.blockToArena hwf hb]
      rfl
    · refine ⟨h.held, h.wf, h.apart, fun a' ha' => ?_, fun j x => ?_, fun j => ?_, fun x hx => ?_⟩
      · by_cases haa : a' = a
        · subst haa
          have hset := hhead.setCount (s.mem.word (a'.page + 8) + (2 ^ 32 - 1))
          rw [hhead.count] at hset
          have hmod : (a'.freeCnt live + (2 ^ 32 - 1)) % 4294967296 = a'.freeCnt (b :: live) := by
            omega
          rw [hmod] at hset
          show a'.Header (s.mem.setWord (a'.page + 8) (s.mem.word (a'.page + 8) + (2 ^ 32 - 1))) _
          rw [hhead.count]
          exact hset
        · rw [h.freeCnt_cons_other ha ha' hb haa]
          refine (h.header a' ha').frame fun x h₁ h₂ => setWord_out ?_
          have hap := h.apart_of_ne ha ha' (Ne.symm haa)
          have h₃ := hwf.some
          have h₄ := (h.wf a' ha').some
          unfold Arena.Apart at hap
          omega
      · show x ∈ update s.freeList i rest j ↔ _
        have hiff := h.free_iff j x
        by_cases hj : j = i
        · subst hj
          rw [update_self]
          rw [hfl, mem_cons] at hiff
          constructor
          · intro hx
            obtain ⟨a', ha', hi', hx', hl'⟩ := hiff.mp (.inr hx)
            have hxb : x ≠ b := fun heq => hnd.1 (heq ▸ hx)
            exact ⟨a', ha', hi', hx', by simp [hxb, hl']⟩
          · rintro ⟨a', ha', hi', hx', hl'⟩
            rw [mem_cons, not_or] at hl'
            exact (hiff.mpr ⟨a', ha', hi', hx', hl'.2⟩).resolve_left hl'.1
        · rw [update_of_ne hj, hiff]
          constructor
          · rintro ⟨a', ha', hi', hx', hl'⟩
            have hxb : x ≠ b := by
              rintro rfl
              have := h.arena_unique ha' ha hx' hb
              subst this
              rw [hi] at hi'
              exact hj (Option.some.inj hi').symm
            exact ⟨a', ha', hi', hx', by simp [hxb, hl']⟩
          · rintro ⟨a', ha', hi', hx', hl'⟩
            rw [mem_cons, not_or] at hl'
            exact ⟨a', ha', hi', hx', hl'.2⟩
      · show (update s.freeList i rest j).Nodup
        rw [update_apply]
        split
        · exact hnd.2
        · exact h.nodup j
      · rcases mem_cons.mp hx with rfl | hx
        · exact ⟨a, ha, hb⟩
        · exact h.live_in x hx
    · intro x hx
      refine setWord_out ?_
      have := hx a ha
      omega

/-- The pages that palloc has given are none of those that are held. -/
def Fits (arenas : List Arena) (new : Arena) : Prop :=
  new.Wf ∧ ∀ a ∈ arenas, new.Apart a

variable {a : Arena} {b n p : Nat}

theorem Fits.not_live {new : Arena} (hf : Fits arenas new) (h : HeapInv s live arenas)
    (hb : b ∈ new.blocks) : b ∉ live := by
  intro hl
  obtain ⟨a, ha, hba⟩ := h.live_in b hl
  have hap := hf.2 a ha
  have h₁ := hf.1.block hb
  have h₂ := (h.wf a ha).block hba
  have h₃ := (h.wf a ha).some
  have h₄ := hf.1.some
  unfold Arena.Apart at hap
  omega

theorem Fits.header {new : Arena} {m : Mem} (hf : Fits arenas new) (ha : a ∈ arenas)
    (hwf : a.Wf) (h : a.Header s.mem n)
    (hm : ∀ x, x < new.page ∨ new.page + 12 ≤ x → m x = s.mem x) : a.Header m n := by
  refine h.frame fun x h₁ h₂ => hm x ?_
  have hap := hf.2 a ha
  have h₃ := hf.1.some
  have h₄ := hwf.some
  unfold Arena.Apart at hap
  omega

theorem mapM_ok {α β : Type} {f : α → Except MallocPanic β} {g : α → β} {l : List α}
    (h : ∀ x ∈ l, f x = .ok (g x)) : l.mapM f = .ok (l.map g) := by
  induction l with
  | nil => rfl
  | cons x l ih =>
    rw [mapM_cons, h x mem_cons_self, ih fun y hy => h y (mem_cons_of_mem x hy)]
    rfl

theorem newArena_ok (h : HeapInv s live arenas) (hd : descs[i]? = some d)
    (hf : Fits arenas ⟨p, 1, some i⟩) (hnil : s.freeList i = []) :
    ∃ s', s.newArena i d (some p) = .ok (some s') ∧ HeapInv s' live (⟨p, 1, some i⟩ :: arenas) ∧
      s'.freeList i ≠ [] ∧ ∀ x, x < p ∨ p + 12 ≤ x → s'.mem x = s.mem x := by
  have hi : i < 4294967295 := by
    have := (List.getElem?_eq_some_iff.mp hd).1
    have hlen : descs.length = 7 := rfl
    omega
  have hfit := descs_fit d (mem_of_getElem? hd)
  have hcnt : d.blocksPerArena < 4294967296 := by
    have : d.blocksPerArena * 1 ≤ d.blocksPerArena * d.blockSize := Nat.mul_le_mul_left _ hfit.2.1
    omega
  have hhead : Arena.Header (setArena s.mem p (i + 1) d.blocksPerArena) ⟨p, 1, some i⟩
      d.blocksPerArena := by
    have := Arena.header_setArena s.mem ⟨p, 1, some i⟩ d.blocksPerArena (by
      show i + 1 < 4294967296
      omega)
    rwa [Nat.mod_eq_of_lt hcnt] at this
  have hblocks : (List.range d.blocksPerArena).mapM
      (arenaToBlock (setArena s.mem p (i + 1) d.blocksPerArena) p) =
        .ok (Arena.blocks ⟨p, 1, some i⟩) := by
    simp only [Arena.blocks, hd]
    exact mapM_ok fun k hk => hhead.arenaToBlock hf.1 rfl hd (mem_range.mp hk)
  have hall : Arena.freeCnt ⟨p, 1, some i⟩ live = d.blocksPerArena := by
    have hlen : (Arena.blocks ⟨p, 1, some i⟩).length = d.blocksPerArena := by
      simp [Arena.blocks, hd]
    rw [← hlen]
    simp only [Arena.freeCnt]
    rw [countP_eq_length]
    intro b hb
    simpa using hf.not_live h hb
  refine ⟨{ s with mem := setArena s.mem p (i + 1) d.blocksPerArena, held := (p, 1) :: s.held
    }.setFreeList i (Arena.blocks ⟨p, 1, some i⟩), ?_, ?_, ?_, ?_⟩
  · simp only [newArena, getPages, Nat.one_ne_zero, if_false, hblocks, hnil, nil_append]
    rfl
  · refine ⟨?_, ?_, ?_, ?_, fun j b => ?_, fun j => ?_, fun b hb => ?_⟩
    · show (p, 1) :: s.held = _
      rw [h.held]
      rfl
    · exact forall_mem_cons.mpr ⟨hf.1, h.wf⟩
    · exact pairwise_cons.mpr ⟨hf.2, h.apart⟩
    · intro a ha
      rcases mem_cons.mp ha with rfl | ha
      · rw [hall]
        exact hhead
      · exact hf.header ha (h.wf a ha) (h.header a ha) fun x hx => Arena.setArena_out hx
    · show b ∈ update s.freeList i _ j ↔ _
      have hiff := h.free_iff j b
      by_cases hj : j = i
      · subst hj
        rw [update_self]
        rw [hnil] at hiff
        constructor
        · intro hb
          exact ⟨_, mem_cons_self, rfl, hb, hf.not_live h hb⟩
        · rintro ⟨a, ha, hi', hb, hl⟩
          rcases mem_cons.mp ha with rfl | ha
          · exact hb
          · exact absurd (hiff.mpr ⟨a, ha, hi', hb, hl⟩) not_mem_nil
      · rw [update_of_ne hj, hiff]
        constructor
        · rintro ⟨a, ha, hrest⟩
          exact ⟨a, mem_cons_of_mem _ ha, hrest⟩
        · rintro ⟨a, ha, hi', hrest⟩
          rcases mem_cons.mp ha with rfl | ha
          · exact absurd (Option.some.inj hi').symm hj
          · exact ⟨a, ha, hi', hrest⟩
    · show (update s.freeList i _ j).Nodup
      rw [update_apply]
      split
      · exact hf.1.blocks_nodup
      · exact h.nodup j
    · obtain ⟨a, ha, hba⟩ := h.live_in b hb
      exact ⟨a, mem_cons_of_mem _ ha, hba⟩
  · show update s.freeList i (Arena.blocks ⟨p, 1, some i⟩) i ≠ []
    rw [update_self]
    simp only [Arena.blocks, hd, ne_eq, map_eq_nil_iff, range_eq_nil]
    omega
  · exact fun x hx => Arena.setArena_out hx

theorem bigArena_ok (h : HeapInv s live arenas) (hn : n < 4294967296)
    (hf : Fits arenas ⟨p, n, none⟩) :
    HeapInv { s with mem := setArena s.mem p 0 n, held := (p, n) :: s.held } ((p + 12) :: live)
      (⟨p, n, none⟩ :: arenas) := by
  have hself : p + 12 ∈ Arena.blocks ⟨p, n, none⟩ := mem_singleton.mpr rfl
  have hold : ∀ a ∈ arenas, ∀ b ∈ a.blocks, b ≠ p + 12 := by
    intro a ha b hb heq
    have hap := hf.2 a ha
    have h₁ := hf.1.block hself
    have h₂ := (h.wf a ha).block hb
    have h₃ := (h.wf a ha).some
    unfold Arena.Apart at hap
    simp only at hap h₁
    omega
  refine ⟨?_, ?_, ?_, ?_, fun j b => ?_, h.nodup, fun b hb => ?_⟩
  · show (p, n) :: s.held = _
    rw [h.held]
    rfl
  · exact forall_mem_cons.mpr ⟨hf.1, h.wf⟩
  · exact pairwise_cons.mpr ⟨hf.2, h.apart⟩
  · intro a ha
    rcases mem_cons.mp ha with rfl | ha
    · have := Arena.header_setArena s.mem ⟨p, n, none⟩ n (Nat.zero_lt_succ _)
      rwa [Nat.mod_eq_of_lt hn] at this
    · have hsame : a.freeCnt ((p + 12) :: live) = a.freeCnt live :=
        HeapInv.freeCnt_congr fun b hb => by simp [hold a ha b hb]
      rw [hsame]
      exact hf.header ha (h.wf a ha) (h.header a ha) fun x hx => Arena.setArena_out hx
  · show b ∈ s.freeList j ↔ _
    rw [h.free_iff]
    constructor
    · rintro ⟨a, ha, hi', hb, hl⟩
      exact ⟨a, mem_cons_of_mem _ ha, hi', hb, by simp [hold a ha b hb, hl]⟩
    · rintro ⟨a, ha, hi', hb, hl⟩
      rcases mem_cons.mp ha with rfl | ha
      · cases hi'
      · exact ⟨a, ha, hi', hb, fun hx => hl (mem_cons_of_mem _ hx)⟩
  · rcases mem_cons.mp hb with rfl | hb
    · exact ⟨_, mem_cons_self, hself⟩
    · obtain ⟨a, ha, hba⟩ := h.live_in b hb
      exact ⟨a, mem_cons_of_mem _ ha, hba⟩

/-- `malloc` has handed out the block `b`. -/
structure Allocated (s s' : Heap) (live : List Nat) (arenas arenas' : List Arena) (size b : Nat) :
    Prop where
  notLive : b ∉ live
  inv : HeapInv s' (b :: live) arenas'
  inUse : InUse (b :: live) arenas'
  old : ∀ a ∈ arenas, a ∈ arenas'
  room : ∃ a ∈ arenas', b ∈ a.blocks ∧ size ≤ a.capacity
  mem : ∀ x, OffHeaders arenas' x → s'.mem x = s.mem x

/-- palloc's answer to a request for `n` pages. -/
def Answer (arenas : List Arena) (n : Nat) (ans : Option Nat) : Prop :=
  ∀ p, ans = some p → (p % 4096 = 0 ∧ 0 < p ∧ p + 4096 * n ≤ 2 ^ 32) ∧
    ∀ a ∈ arenas, a.page + 4096 * a.pages ≤ p ∨ p + 4096 * n ≤ a.page

theorem Answer.fits {desc : Option Nat} (h : Answer arenas n (some p)) (hn : 0 < n)
    (hsmall : ∀ i, desc = some i → n = 1 ∧ ∃ d, descs[i]? = some d) :
    Fits arenas ⟨p, n, desc⟩ := by
  obtain ⟨⟨h₁, h₂, h₃⟩, hap⟩ := h p rfl
  exact ⟨⟨h₁, h₂, hn, h₃, hsmall⟩, fun a ha => (hap a ha).symm⟩

theorem inUse_cons {live : List Nat} {arenas : List Arena} (h : InUse live arenas) (b : Nat) :
    InUse (b :: live) arenas := by
  intro a ha
  obtain ⟨x, hx, hl⟩ := h a ha
  exact ⟨x, hx, mem_cons_of_mem b hl⟩

theorem malloc_ok {size : Nat} {ans : Option Nat} (h : HeapInv s live arenas)
    (hu : InUse live arenas) (hsize : size ≤ 4294967284)
    (hans : Answer arenas (MallocState.asks size) ans) :
    s.malloc size ans = .ok (none, s) ∨
      ∃ b s' arenas', s.malloc size ans = .ok (some b, s') ∧
        Allocated s s' live arenas arenas' size b := by
  unfold malloc
  by_cases hzero : size = 0
  · exact .inl (if_pos hzero)
  rw [if_neg hzero]
  cases hfind : findDesc size with
  | none =>
    simp only [asks, hfind] at hans
    by_cases hn : pageCnt size = 0
    · exact .inl (by simp only [getPages, hn, if_true])
    cases ans with
    | none => exact .inl (by simp only [getPages, hn, if_false])
    | some p =>
      have hroom : size + 12 ≤ 4096 * pageCnt size := by
        unfold pageCnt at hn ⊢
        omega
      have hcnt : pageCnt size < 4294967296 := by
        unfold pageCnt
        omega
      have hf : Fits arenas ⟨p, pageCnt size, none⟩ :=
        hans.fits (Nat.pos_of_ne_zero hn) nofun
      refine .inr ⟨p + 12, _, _, by simp only [getPages, hn, if_false], ?_,
        bigArena_ok h hcnt hf, ?_, fun a ha => mem_cons_of_mem _ ha, ?_, fun x hx => ?_⟩
      · exact hf.not_live h (mem_singleton.mpr rfl)
      · intro a ha
        rcases mem_cons.mp ha with rfl | ha
        · exact ⟨p + 12, mem_singleton.mpr rfl, mem_cons_self⟩
        · exact inUse_cons hu _ a ha
      · refine ⟨_, mem_cons_self, mem_singleton.mpr rfl, ?_⟩
        show size ≤ 4096 * pageCnt size - 12
        omega
      · exact Arena.setArena_out (hx _ mem_cons_self)
  | some x =>
    obtain ⟨i, d⟩ := x
    obtain ⟨hd, hle⟩ := findDesc_some hfind
    simp only [asks, hfind] at hans
    have hcap : ∀ a : Arena, a.desc = some i → size ≤ a.capacity := by
      intro a hi
      simpa [Arena.capacity, hi, hd] using hle
    by_cases hnil : s.freeList i = []
    · cases ans with
      | none =>
        refine .inl ?_
        simp only [hnil, if_true, newArena, getPages, Nat.one_ne_zero, if_false]
        rfl
      | some p =>
        have hf : Fits arenas ⟨p, 1, some i⟩ := hans.fits Nat.one_pos fun j hj => by
          cases hj
          exact ⟨rfl, d, hd⟩
        obtain ⟨s₁, hnew, h₁, hne, hmem₁⟩ := newArena_ok h hd hf hnil
        obtain ⟨a, ha, b, hb, s₂, hi, hl, hpop, h₂, hmem₂⟩ := popBlock_ok h₁ hne
        have hself : a = ⟨p, 1, some i⟩ := by
          rcases mem_cons.mp ha with heq | hold
          · exact heq
          · -- a free block of an old arena would have been on the list
            have := (h.free_iff i b).mpr ⟨a, hold, hi, hb, hl⟩
            rw [hnil] at this
            cases this
        refine .inr ⟨b, s₂, _, ?_, hl, h₂, ?_, fun a ha => mem_cons_of_mem _ ha,
          ⟨a, ha, hb, hcap a hi⟩, fun x hx => ?_⟩
        · simp only [hnil, if_true, hnew, bind, Except.bind, hpop]
          rfl
        · intro a' ha'
          rcases mem_cons.mp ha' with rfl | ha'
          · exact ⟨b, hself ▸ hb, mem_cons_self⟩
          · exact inUse_cons hu b a' ha'
        · rw [hmem₂ x hx]
          exact hmem₁ x (hx _ mem_cons_self)
    · obtain ⟨a, ha, b, hb, s₂, hi, hl, hpop, h₂, hmem₂⟩ := popBlock_ok h hnil
      refine .inr ⟨b, s₂, arenas, ?_, hl, h₂, inUse_cons hu b, fun a ha => ha,
        ⟨a, ha, hb, hcap a hi⟩, hmem₂⟩
      simp only [hnil, if_false, hpop, bind, Except.bind]
      rfl

/-! ## `free` -/

theorem removeArena {fl : Nat → List Nat} (h : HeapInv s live arenas) (ha : a ∈ arenas)
    (hdead : ∀ b ∈ a.blocks, b ∉ live)
    (hfl : ∀ j b, b ∈ fl j ↔ b ∈ s.freeList j ∧ b ∉ a.blocks) (hnd : ∀ j, (fl j).Nodup) :
    ∃ s', { s with freeList := fl }.freePages a.page a.pages = .ok s' ∧
      HeapInv s' live (arenas.filter (· ≠ a)) ∧
      ∀ x, x < a.page ∨ a.page + 4096 * a.pages ≤ x → s'.mem x = s.mem x := by
  have hmem : (a.page, a.pages) ∈ s.held := by
    rw [h.held]
    exact mem_map_of_mem ha
  have hout : ∀ x, x < a.page ∨ a.page + 4096 * a.pages ≤ x →
      s.mem.fill a.page (4096 * a.pages) 0xcc x = s.mem x := fun x hx => fill_out hx
  refine ⟨_, if_pos hmem, ⟨?_, ?_, ?_, ?_, fun j b => ?_, hnd, fun b hb => ?_⟩, hout⟩
  · show s.held.filter (· ≠ (a.page, a.pages)) = _
    rw [h.held, filter_map]
    congr 1
    apply filter_congr
    intro a' ha'
    simp only [Function.comp_apply, decide_eq_decide]
    -- an arena that starts at the same page is the same arena
    refine not_congr ⟨fun heq => ?_, fun heq => heq ▸ rfl⟩
    by_contra hne
    have hap := h.apart_of_ne ha' ha hne
    have h₁ := (h.wf a ha).some
    have h₂ := (h.wf a' ha').some
    have h₃ := congrArg Prod.fst heq
    simp only at h₃
    unfold Arena.Apart at hap
    omega
  · exact fun a' ha' => h.wf a' (mem_of_mem_filter ha')
  · exact h.apart.filter _
  · intro a' ha'
    obtain ⟨hin, hne⟩ := mem_filter.mp ha'
    have hne : a' ≠ a := by simpa using hne
    refine (h.header a' hin).frame fun x h₁ h₂ => hout x ?_
    have hap := h.apart_of_ne hin ha hne
    have h₃ := (h.wf a' hin).some
    unfold Arena.Apart at hap
    omega
  · show b ∈ fl j ↔ _
    rw [hfl, h.free_iff]
    constructor
    · rintro ⟨⟨a', ha', hi, hb, hl⟩, hnot⟩
      have hne : a' ≠ a := fun heq => hnot (heq ▸ hb)
      exact ⟨a', mem_filter.mpr ⟨ha', by simpa using hne⟩, hi, hb, hl⟩
    · rintro ⟨a', ha', hi, hb, hl⟩
      obtain ⟨hin, hne⟩ := mem_filter.mp ha'
      have hne : a' ≠ a := by simpa using hne
      exact ⟨⟨a', hin, hi, hb, hl⟩, fun hba => hne (h.arena_unique hin ha hb hba)⟩
  · obtain ⟨a', ha', hba⟩ := h.live_in b hb
    have hne : a' ≠ a := fun heq => hdead b (heq ▸ hba) hb
    exact ⟨a', mem_filter.mpr ⟨ha', by simpa using hne⟩, hba⟩

/-- The block `b` has been taken back. -/
structure Freed (s s' : Heap) (live : List Nat) (arenas arenas' : List Arena) (b : Nat) :
    Prop where
  inv : HeapInv s' (live.filter (· ≠ b)) arenas'
  inUse : InUse (live.filter (· ≠ b)) arenas'
  sub : ∀ a ∈ arenas', a ∈ arenas
  kept : ∀ a ∈ arenas, a ∈ arenas' ↔ ∃ x ∈ a.blocks, x ∈ live.filter (· ≠ b)
  mem : ∀ a ∈ arenas, ∀ x ∈ a.blocks, x ∈ live → x ≠ b → ∀ o < a.capacity,
    s'.mem (x + o) = s.mem (x + o)

theorem mem_drop {x : Nat} : x ∈ live.filter (· ≠ b) ↔ x ∈ live ∧ x ≠ b := by
  simp [mem_filter]

theorem freeCnt_drop_other {a' : Arena} (h : HeapInv s live arenas) (ha : a ∈ arenas)
    (ha' : a' ∈ arenas) (hb : b ∈ a.blocks) (hne : a' ≠ a) :
    a'.freeCnt (live.filter (· ≠ b)) = a'.freeCnt live := by
  refine HeapInv.freeCnt_congr fun x hx => ?_
  have hxb : x ≠ b := fun heq => hne (h.arena_unique ha' ha hx (heq ▸ hb))
  simp [hxb]

theorem freeCnt_drop (hwf : a.Wf) (hi : a.desc = some i) (hb : b ∈ a.blocks)
    (hlive : b ∈ live) : a.freeCnt (live.filter (· ≠ b)) = a.freeCnt live + 1 := by
  have hcount := countP_change (p := fun x => decide (x ∉ live))
    (q := fun x => decide (x ∉ live.filter (· ≠ b))) hwf.blocks_nodup hb (by
      intro y _ hy
      simp [hy])
  simp only [Arena.freeCnt, hi]
  simpa [hlive] using hcount

section

variable (h : HeapInv s live arenas) (hu : InUse live arenas) (ha : a ∈ arenas) (hb : b ∈ a.blocks)
include h hu ha hb

theorem inUse_drop {a' : Arena} (ha' : a' ∈ arenas) (hne : a' ≠ a) :
    ∃ x ∈ a'.blocks, x ∈ live.filter (· ≠ b) := by
  obtain ⟨x, hx, hl⟩ := hu a' ha'
  exact ⟨x, hx, mem_drop.mpr ⟨hl, fun heq => hne (h.arena_unique ha' ha hx (heq ▸ hb))⟩⟩

theorem Freed.ofRemove {s₁ : Heap} {fl : Nat → List Nat}
    (h₁ : HeapInv s₁ (live.filter (· ≠ b)) arenas) (hdead : ∀ x ∈ a.blocks, x ∉ live.filter (· ≠ b))
    (hfl : ∀ j x, x ∈ fl j ↔ x ∈ s₁.freeList j ∧ x ∉ a.blocks) (hnd : ∀ j, (fl j).Nodup)
    (hmem : ∀ x, x < a.page ∨ a.page + 4096 * a.pages ≤ x → s₁.mem x = s.mem x) :
    ∃ s', { s₁ with freeList := fl }.freePages a.page a.pages = .ok s' ∧
      Freed s s' live arenas (arenas.filter (· ≠ a)) b := by
  obtain ⟨s', hs', hinv, hout⟩ := removeArena h₁ ha hdead hfl hnd
  refine ⟨s', hs', hinv, fun a' ha' => ?_, fun a' ha' => mem_of_mem_filter ha', fun a' ha' => ?_,
    fun a' ha' x hx hl hxb o ho => ?_⟩
  · obtain ⟨hin, hne⟩ := mem_filter.mp ha'
    exact inUse_drop h hu ha hb hin (by simpa using hne)
  · rw [mem_filter]
    constructor
    · rintro ⟨-, hne⟩
      exact inUse_drop h hu ha hb ha' (by simpa using hne)
    · rintro ⟨x, hx, hl⟩
      refine ⟨ha', ?_⟩
      have hne : a' ≠ a := fun heq => hdead x (heq ▸ hx) hl
      simpa using hne
  · have hne : a' ≠ a := by
      rintro rfl
      exact hdead x hx (mem_drop.mpr ⟨hl, hxb⟩)
    have hap := h.apart_of_ne ha' ha hne
    have hin := (h.wf a' ha').block hx
    have hoff : x + o < a.page ∨ a.page + 4096 * a.pages ≤ x + o := by
      unfold Arena.Apart at hap
      omega
    rw [hout _ hoff, hmem _ hoff]

end

theorem removeBlocks_ok {m : Mem} {idxs l : List Nat}
    (hhead : a.Header m n) (hwf : a.Wf) (hi : a.desc = some i) (hd : descs[i]? = some d)
    (hidx : ∀ k ∈ idxs, k < d.blocksPerArena) (hnd : idxs.Nodup)
    (hin : ∀ k ∈ idxs, a.page + 12 + k * d.blockSize ∈ l) (hl : l.Nodup) :
    ∃ l', removeBlocks m a.page idxs l = .ok l' ∧ l'.Nodup ∧
      ∀ x, x ∈ l' ↔ x ∈ l ∧ ∀ k ∈ idxs, x ≠ a.page + 12 + k * d.blockSize := by
  induction idxs generalizing l with
  | nil => exact ⟨l, rfl, hl, by simp⟩
  | cons k idxs ih =>
    rw [nodup_cons] at hnd
    have hsize := (descs_fit d (mem_of_getElem? hd)).2.1
    have hk := hin k mem_cons_self
    have hleft : ∀ j ∈ idxs,
        a.page + 12 + j * d.blockSize ∈ l.erase (a.page + 12 + k * d.blockSize) := by
      intro j hj
      refine hl.mem_erase_iff.mpr ⟨fun heq => ?_, hin j (mem_cons_of_mem k hj)⟩
      have heq : j * d.blockSize = k * d.blockSize := Nat.add_left_cancel heq
      exact hnd.1 (Nat.eq_of_mul_eq_mul_right hsize heq ▸ hj)
    obtain ⟨l', hrest, hl', hmem⟩ := ih (fun j hj => hidx j (mem_cons_of_mem k hj)) hnd.2
      hleft (hl.erase (a.page + 12 + k * d.blockSize))
    refine ⟨l', ?_, hl', fun x => ?_⟩
    · simp only [removeBlocks, hhead.arenaToBlock hwf hi hd (hidx k mem_cons_self),
        listRemove, if_pos hk, bind, Except.bind]
      exact hrest
    · rw [hmem, hl.mem_erase_iff, forall_mem_cons]
      constructor
      · rintro ⟨⟨hne, hx⟩, hall⟩
        exact ⟨hx, hne, hall⟩
      · rintro ⟨hx, hne, hall⟩
        exact ⟨⟨hne, hx⟩, hall⟩

section

variable (h : HeapInv s live arenas) (ha : a ∈ arenas)
include h ha

theorem dropBig (hi : a.desc = none) (hb : b ∈ a.blocks) :
    HeapInv s (live.filter (· ≠ b)) arenas := by
  refine ⟨h.held, h.wf, h.apart, fun a' ha' => ?_, fun j x => ?_, h.nodup, fun x hx => ?_⟩
  · have hsame : a'.freeCnt (live.filter (· ≠ b)) = a'.freeCnt live := by
      by_cases hne : a' = a
      · subst hne
        simp only [Arena.freeCnt, hi]
      · exact freeCnt_drop_other h ha ha' hb hne
    rw [hsame]
    exact h.header a' ha'
  · rw [h.free_iff]
    refine exists_congr fun a' => and_congr_right fun ha' => and_congr_right fun hi' =>
      and_congr_right fun hx => not_congr ?_
    rw [mem_drop]
    refine ⟨fun hl => ⟨hl, ?_⟩, fun hl => hl.1⟩
    rintro rfl
    have := h.arena_unique ha' ha hx hb
    subst this
    rw [hi] at hi'
    cases hi'
  · exact h.live_in x (mem_drop.mp hx).1

theorem dropSmall (hi : a.desc = some i) (hd : descs[i]? = some d) (hb : b ∈ a.blocks)
    (hlive : b ∈ live) :
    HeapInv
      ({ s with
          mem := (s.mem.fill b d.blockSize 0xcc).setWord (a.page + 8) (a.freeCnt live + 1)
        }.setFreeList i (b :: s.freeList i))
      (live.filter (· ≠ b)) arenas := by
  have hwf := h.wf a ha
  have hcap : a.capacity = d.blockSize := by simp [Arena.capacity, hi, hd]
  have hfill : ∀ a' ∈ arenas, a'.Header (s.mem.fill b d.blockSize 0xcc) (a'.freeCnt live) := by
    intro a' ha'
    refine (h.header a' ha').frame fun x h₁ h₂ => fill_out ?_
    have := h.block_off_header ha ha' hb
    rw [hcap] at this
    omega
  have hnot : b ∉ s.freeList i := by
    intro hfree
    obtain ⟨-, -, -, -, hl⟩ := (h.free_iff i b).mp hfree
    exact hl hlive
  refine ⟨h.held, h.wf, h.apart, fun a' ha' => ?_, fun j x => ?_, fun j => ?_, fun x hx => ?_⟩
  · by_cases hne : a' = a
    · subst hne
      have hset := (hfill a' ha).setCount (a'.freeCnt live + 1)
      have hle := HeapInv.freeCnt_le (live.filter (· ≠ b)) hi hd
      rw [freeCnt_drop hwf hi hb hlive] at hle ⊢
      obtain ⟨-, hsize, hfit⟩ := descs_fit d (mem_of_getElem? hd)
      have hbpa : d.blocksPerArena * 1 ≤ d.blocksPerArena * d.blockSize :=
        Nat.mul_le_mul_left _ hsize
      rwa [Nat.mod_eq_of_lt (by omega)] at hset
    · rw [freeCnt_drop_other h ha ha' hb hne]
      refine (hfill a' ha').frame fun x h₁ h₂ => setWord_out ?_
      have hap := h.apart_of_ne ha ha' (Ne.symm hne)
      have h₃ := hwf.some
      have h₄ := (h.wf a' ha').some
      unfold Arena.Apart at hap
      omega
  · show x ∈ update s.freeList i (b :: s.freeList i) j ↔ _
    have hiff := h.free_iff j x
    by_cases hx : x = b
    · subst hx
      have hleft : x ∉ live.filter (· ≠ x) := fun hl => (mem_drop.mp hl).2 rfl
      by_cases hj : j = i
      · subst hj
        rw [update_self]
        exact ⟨fun _ => ⟨a, ha, hi, hb, hleft⟩, fun _ => mem_cons_self⟩
      · rw [update_of_ne hj, hiff]
        refine ⟨fun ⟨_, _, _, _, hl⟩ => absurd hlive hl, ?_⟩
        rintro ⟨a', ha', hi', hx', -⟩
        have := h.arena_unique ha' ha hx' hb
        subst this
        rw [hi] at hi'
        exact absurd (Option.some.inj hi').symm hj
    · have hrest : x ∈ update s.freeList i (b :: s.freeList i) j ↔ x ∈ s.freeList j := by
        rw [update_apply]
        split
        · next hj => rw [mem_cons, or_iff_right hx, hj]
        · exact Iff.rfl
      rw [hrest, hiff]
      refine exists_congr fun a' => and_congr_right fun _ => and_congr_right fun _ =>
        and_congr_right fun _ => not_congr ?_
      rw [mem_drop]
      exact ⟨fun hl => ⟨hl, hx⟩, fun hl => hl.1⟩
  · show (update s.freeList i (b :: s.freeList i) j).Nodup
    rw [update_apply]
    split
    · exact nodup_cons.mpr ⟨hnot, h.nodup i⟩
    · exact h.nodup j
  · exact h.live_in x (mem_drop.mp hx).1

theorem unlistArena (hi : a.desc = some i) (hd : descs[i]? = some d)
    (hdead : ∀ x ∈ a.blocks, x ∉ live) :
    ∃ l, removeBlocks s.mem a.page (List.range d.blocksPerArena) (s.freeList i) = .ok l ∧
      (∀ j x, x ∈ (s.setFreeList i l).freeList j ↔ x ∈ s.freeList j ∧ x ∉ a.blocks) ∧
      ∀ j, ((s.setFreeList i l).freeList j).Nodup := by
  have hin : ∀ k ∈ List.range d.blocksPerArena,
      a.page + 12 + k * d.blockSize ∈ s.freeList i := by
    intro k hk
    have hb := (Arena.mem_blocks_some hi hd).mpr ⟨k, mem_range.mp hk, rfl⟩
    exact (h.free_iff i _).mpr ⟨a, ha, hi, hb, hdead _ hb⟩
  obtain ⟨l, hrm, hnd, hl⟩ := removeBlocks_ok (h.header a ha) (h.wf a ha) hi hd
    (fun k hk => mem_range.mp hk) nodup_range hin (h.nodup i)
  refine ⟨l, hrm, fun j x => ?_, fun j => ?_⟩
  · by_cases hj : j = i
    · subst hj
      rw [setFreeList_self, hl, Arena.mem_blocks_some hi hd]
      refine and_congr_right fun _ => ?_
      simp only [mem_range, not_exists, not_and]
    · rw [setFreeList_of_ne s l hj]
      refine ⟨fun hx => ⟨hx, fun hxa => ?_⟩, fun hx => hx.1⟩
      -- a block on another list is of another arena
      obtain ⟨a', ha', hi', hx', -⟩ := (h.free_iff j x).mp hx
      have := h.arena_unique ha' ha hx' hxa
      subst this
      rw [hi] at hi'
      exact hj (Option.some.inj hi').symm
  · by_cases hj : j = i
    · subst hj
      rw [setFreeList_self]
      exact hnd
    · rw [setFreeList_of_ne s l hj]
      exact h.nodup j

end

theorem freeBlock_ok (h : HeapInv s live arenas) (hu : InUse live arenas)
    (hlive : b ∈ live) :
    ∃ s' arenas', s.freeBlock b = .ok s' ∧ Freed s s' live arenas arenas' b := by
  obtain ⟨a, ha, hb⟩ := h.live_in b hlive
  have hwf := h.wf a ha
  have hhead := h.header a ha
  unfold freeBlock
  simp only [hhead.blockToArena hwf hb, bind, Except.bind]
  cases hi : a.desc with
  | none =>
    simp only [hhead.arenaDesc_none hi]
    have hcnt : s.mem.word (a.page + 8) = a.pages := by
      rw [hhead.count]
      simp only [Arena.freeCnt, hi]
    rw [hcnt]
    have hdead : ∀ x ∈ a.blocks, x ∉ live.filter (· ≠ b) := by
      intro x hx hl
      rw [Arena.mem_blocks_none hi] at hx hb
      exact (mem_drop.mp hl).2 (hx.trans hb.symm)
    have hfl : ∀ j x, x ∈ s.freeList j ↔ x ∈ s.freeList j ∧ x ∉ a.blocks := by
      refine fun j x => ⟨fun hx => ⟨hx, fun hxa => ?_⟩, fun hx => hx.1⟩
      obtain ⟨a', ha', hi', hx', -⟩ := (h.free_iff j x).mp hx
      have := h.arena_unique ha' ha hx' hxa
      subst this
      rw [hi] at hi'
      cases hi'
    obtain ⟨s', hs', hfreed⟩ := Freed.ofRemove h hu ha hb (dropBig h ha hi hb) hdead hfl h.nodup
      fun x _ => rfl
    exact ⟨s', _, hs', hfreed⟩
  | some i =>
    obtain ⟨hone, d, hd⟩ := hwf.small i hi
    have hcap : a.capacity = d.blockSize := by simp [Arena.capacity, hi, hd]
    have hin := hwf.block hb
    simp only [hhead.arenaDesc_some hi hd]
    have hword : (s.mem.fill b d.blockSize 0xcc).word (a.page + 8) = a.freeCnt live := by
      rw [← hhead.count]
      exact word_congr fun k hk => fill_out (by omega)
    have hle := HeapInv.freeCnt_le (live.filter (· ≠ b)) hi hd
    have hcnt := freeCnt_drop hwf hi hb hlive
    obtain ⟨-, hsize, hfit⟩ := descs_fit d (mem_of_getElem? hd)
    have hbpa : d.blocksPerArena * 1 ≤ d.blocksPerArena * d.blockSize :=
      Nat.mul_le_mul_left _ hsize
    have hmod : (a.freeCnt live + 1) % 2 ^ 32 = a.freeCnt live + 1 :=
      Nat.mod_eq_of_lt (by omega)
    rw [hword, hmod]
    have h₁ := dropSmall h ha hi hd hb hlive
    have hmem : ∀ x, x < a.page ∨ a.page + 4096 * a.pages ≤ x →
        (s.mem.fill b d.blockSize 0xcc).setWord (a.page + 8) (a.freeCnt live + 1) x = s.mem x := by
      intro x hx
      rw [setWord_out (by omega), fill_out (by omega)]
    by_cases hfull : d.blocksPerArena ≤ a.freeCnt live + 1
    · -- all blocks of the arena are free
      have heq : a.freeCnt (live.filter (· ≠ b)) = d.blocksPerArena := by omega
      have hdead : ∀ x ∈ a.blocks, x ∉ live.filter (· ≠ b) := by
        have hlen : a.blocks.length = d.blocksPerArena := by simp [Arena.blocks, hi, hd]
        simp only [Arena.freeCnt, hi] at heq
        rw [← hlen, countP_eq_length] at heq
        intro x hx
        exact of_decide_eq_true (heq x hx)
      obtain ⟨l, hrm, hfl, hnd⟩ := unlistArena h₁ ha hi hd hdead
      obtain ⟨s', hs', hfreed⟩ := Freed.ofRemove h hu ha hb h₁ hdead hfl hnd hmem
      refine ⟨s', _, ?_, hfreed⟩
      have hall : a.freeCnt live + 1 = d.blocksPerArena := by omega
      rw [if_pos hfull, if_neg (not_not.mpr hall)]
      rw [hone] at hs'
      simp only [setFreeList_self] at hrm ⊢
      simp only [hrm]
      exact hs'
    · have hself : ∃ x ∈ a.blocks, x ∈ live.filter (· ≠ b) := by
        have hlen : a.blocks.length = d.blocksPerArena := by simp [Arena.blocks, hi, hd]
        have hlt : a.freeCnt (live.filter (· ≠ b)) < a.blocks.length := by omega
        simp only [Arena.freeCnt, hi] at hlt
        obtain ⟨x, hx, hl⟩ := countP_lt_length_iff.mp hlt
        exact ⟨x, hx, not_not.mp (of_decide_eq_false hl)⟩
      have hall : InUse (live.filter (· ≠ b)) arenas := by
        intro a' ha'
        by_cases hne : a' = a
        · exact hne ▸ hself
        · exact inUse_drop h hu ha hb ha' hne
      refine ⟨_, arenas, if_neg hfull, h₁, hall, fun _ ha' => ha', fun a' ha' => ?_, ?_⟩
      · exact ⟨fun _ => hall a' ha', fun _ => ha'⟩
      · intro a' ha' x hx _ hxb o ho
        have hap := h.blocks_apart ha ha' hb hx (Ne.symm hxb)
        have hoff := h.block_off_header ha' ha hx
        show (s.mem.fill b d.blockSize 0xcc).setWord (a.page + 8) _ (x + o) = _
        rw [setWord_out (by omega), fill_out (by omega)]

/-! ## `calloc` and `realloc` -/

theorem Allocated.fill {s' : Heap} {arenas' : List Arena} {size b n : Nat}
    (h : Allocated s s' live arenas arenas' size b) (src : Nat → UInt8) (hn : n ≤ size) :
    HeapInv { s' with mem := s'.mem.write b n src } (b :: live) arenas' := by
  obtain ⟨a, ha, hb, hroom⟩ := h.room
  refine h.inv.setMem fun x hx => write_out ?_
  by_contra hin
  exact hx (h.inv.offHeaders ha hb (by omega))

theorem Allocated.memset {s' : Heap} {arenas' : List Arena} {size b : Nat}
    (h : Allocated s s' live arenas arenas' size b) :
    s'.memset b size = .ok { s' with mem := s'.mem.fill b size 0 } := by
  obtain ⟨a, ha, hb, hroom⟩ := h.room
  have hblock := (h.inv.wf a ha).block hb
  have hbound := (h.inv.wf a ha).bounded
  exact if_pos (by omega)

theorem Allocated.kept {s' : Heap} {arenas' : List Arena} {size : Nat}
    (h : Allocated s s' live arenas arenas' size b) {x o : Nat} (ha : a ∈ arenas')
    (hx : x ∈ a.blocks) (ho : o < a.capacity) : s'.mem (x + o) = s.mem (x + o) :=
  h.mem _ (h.inv.offHeaders ha hx (by omega))

theorem blockSize_of_header (hwf : a.Wf) (hhead : a.Header s.mem n)
    (hn : a.desc = none → n = a.pages) (hb : b ∈ a.blocks) : s.blockSize b = .ok a.capacity := by
  unfold blockSize
  simp only [hhead.blockToArena hwf hb, bind, Except.bind]
  cases hi : a.desc with
  | none =>
    simp only [hhead.arenaDesc_none hi]
    rw [Arena.mem_blocks_none hi] at hb
    have hcnt : s.mem.word (a.page + 8) = a.pages := hhead.count.trans (hn hi)
    have h₁ := hwf.aligned
    have h₂ := hwf.bounded
    have h₃ := hwf.pos
    have h₄ := hwf.some
    have hval : (4096 * s.mem.word (a.page + 8) + 2 ^ 32 - b % 4096) % 2 ^ 32 = a.capacity := by
      simp only [hcnt, Arena.capacity, hi]
      omega
    rw [hval]
    rfl
  | some i =>
    obtain ⟨-, d, hd⟩ := hwf.small i hi
    simp only [hhead.arenaDesc_some hi hd, Arena.capacity, hi, hd]
    rfl

theorem blockSize_ok (h : HeapInv s live arenas) (ha : a ∈ arenas)
    (hb : b ∈ a.blocks) : s.blockSize b = .ok a.capacity :=
  blockSize_of_header (h.wf a ha) (h.header a ha) (fun hi => by simp only [Arena.freeCnt, hi]) hb

end Heap

/-! ## Whole runs -/

/-- The arenas are as their headers say, and each has a live block. -/
structure MallocInv (s : MallocState) : Prop where
  heap : HeapInv s.toHeap s.live s.arenas
  inUse : InUse s.live s.arenas

/-- What a call does to the arenas, and to the block it resizes. -/
structure Served (s s' : MallocState) (op : MallocOp) (r : Option Nat) : Prop where
  /-- An arena stays exactly while it has a live block. -/
  arenas : ∀ a ∈ s.arenas, a ∈ s'.arenas ↔ ∃ b ∈ a.blocks, b ∈ s'.live
  /-- `realloc` without memory. -/
  failed : ∀ o size ans, op = .realloc (some o) size ans → size ≠ 0 → r = none → s' = s
  /-- `realloc` keeps the bytes. -/
  resized : ∀ o size ans n, op = .realloc (some o) size ans → r = some n → ∀ a ∈ s.arenas,
    o ∈ a.blocks → ∀ j < min size a.capacity, s'.mem (n + j) = s.mem (o + j)

/-- `calloc` stays below the sizes that wrap around in `malloc`. -/
def callocFits : MallocOp → Bool
  | .calloc a b _ => decide (a * b % 2 ^ 32 ≤ 4294967284)
  | _ => true

namespace MallocInv

variable {s : MallocState} {h : Heap} {live : List Nat} {arenas : List Arena}

theorem of_heap (hh : HeapInv h live arenas) (hu : InUse live arenas) : MallocInv ⟨h, live⟩ := by
  have heq : h.arenas = arenas := hh.arenas_eq
  exact ⟨heq.symm ▸ hh, heq.symm ▸ hu⟩

variable {ans : Option Nat} {size : Nat}

section

variable (hi : MallocInv s)
include hi

theorem answer {n : Nat} (h : s.fresh n ans = true) : Heap.Answer s.arenas n ans := by
  rintro p rfl
  simp only [fresh, Bool.and_eq_true, decide_eq_true_eq, all_eq_true] at h
  refine ⟨h.1, fun a ha => h.2 (a.page, a.pages) ?_⟩
  rw [hi.heap.held]
  exact mem_map_of_mem ha

theorem unchanged {op : MallocOp} (hop : ∀ o size ans n,
    op = .realloc (some o) size ans → (none : Option Nat) ≠ some n) :
    Served s s op none :=
  ⟨fun a ha => ⟨fun _ => hi.inUse a ha, fun _ => ha⟩, fun _ _ _ _ _ _ => rfl,
    fun o size ans n heq hr => absurd hr (hop o size ans n heq)⟩

theorem arenas_kept {h' : Heap} {b : Nat} {m : Mem} {arenas' : List Arena}
    (hal : Heap.Allocated s.toHeap h' s.live s.arenas arenas' size b)
    (hinv : HeapInv { h' with mem := m } (b :: s.live) arenas') (a : Arena) (ha : a ∈ s.arenas) :
    a ∈ Heap.arenas { h' with mem := m } ↔ ∃ x ∈ a.blocks, x ∈ b :: s.live := by
  rw [hinv.arenas_eq]
  exact ⟨fun _ => Heap.inUse_cons hi.inUse b a ha, fun _ => hal.old a ha⟩

theorem malloc (hen : s.enabled (.malloc size ans) = true) :
    ∃ r s', s.exec (.malloc size ans) = .ok (r, s') ∧ MallocInv s' ∧
      Served s s' (.malloc size ans) r := by
  simp only [enabled, Bool.and_eq_true, decide_eq_true_eq] at hen
  rcases Heap.malloc_ok hi.heap hi.inUse (by omega) (hi.answer hen.2) with
    hnone | ⟨b, h', arenas', hsome, hal⟩
  · refine ⟨none, s, ?_, hi, hi.unchanged nofun⟩
    simp only [exec, hnone]
    rfl
  · refine ⟨some b, ⟨h', b :: s.live⟩, ?_, of_heap hal.inv hal.inUse, ?_, nofun, nofun⟩
    · simp only [exec, hsome]
      rfl
    · exact hi.arenas_kept hal hal.inv

theorem calloc {a b : Nat} (hen : s.enabled (.calloc a b ans) = true)
    (hfits : callocFits (.calloc a b ans) = true) :
    ∃ r s', s.exec (.calloc a b ans) = .ok (r, s') ∧ MallocInv s' ∧
      Served s s' (.calloc a b ans) r := by
  simp only [enabled, Bool.and_eq_true, decide_eq_true_eq] at hen
  have hsize : a * b % 2 ^ 32 ≤ 4294967284 := of_decide_eq_true hfits
  by_cases hover : a * b % 2 ^ 32 < a ∨ a * b % 2 ^ 32 < b
  · refine ⟨none, s, ?_, hi, hi.unchanged nofun⟩
    simp only [exec, Heap.calloc, if_pos hover]
    rfl
  · rcases Heap.malloc_ok hi.heap hi.inUse hsize (hi.answer hen.2) with
      hnone | ⟨p, h', arenas', hsome, hal⟩
    · refine ⟨none, s, ?_, hi, hi.unchanged nofun⟩
      simp only [exec, Heap.calloc, if_neg hover, hnone]
      rfl
    · have hinv := hal.fill (fun _ => 0) (Nat.le_refl _)
      refine ⟨some p, ⟨{ h' with mem := h'.mem.fill p (a * b % 2 ^ 32) 0 }, p :: s.live⟩, ?_,
        of_heap hinv hal.inUse, ?_, nofun, nofun⟩
      · simp only [exec, Heap.calloc, if_neg hover, hsome, bind, Except.bind, hal.memset]
        rfl
      · exact hi.arenas_kept hal hinv

theorem free {p : Option Nat} (hen : s.enabled (.free p) = true) :
    ∃ r s', s.exec (.free p) = .ok (r, s') ∧ MallocInv s' ∧ Served s s' (.free p) r := by
  cases p with
  | none => exact ⟨none, s, rfl, hi, hi.unchanged nofun⟩
  | some b =>
    have hlive : b ∈ s.live := by simpa [enabled] using hen
    obtain ⟨h', arenas', hok, hfreed⟩ := Heap.freeBlock_ok hi.heap hi.inUse hlive
    refine ⟨none, ⟨h', s.live.filter (· ≠ b)⟩, ?_, of_heap hfreed.inv hfreed.inUse, ?_, nofun,
      nofun⟩
    · simp only [exec, Heap.free, hok]
      rfl
    · intro a ha
      show a ∈ h'.arenas ↔ _
      rw [hfreed.inv.arenas_eq]
      exact hfreed.kept a ha

theorem realloc {old : Option Nat} (hen : s.enabled (.realloc old size ans) = true) :
    ∃ r s', s.exec (.realloc old size ans) = .ok (r, s') ∧ MallocInv s' ∧
      Served s s' (.realloc old size ans) r := by
  simp only [enabled, Bool.and_eq_true, decide_eq_true_eq] at hen
  obtain ⟨⟨hle, hfresh⟩, hold⟩ := hen
  by_cases hzero : size = 0
  · -- `realloc` is `free`
    obtain ⟨r, s', hok, hinv, hserved⟩ := hi.free (p := old) hold
    simp only [exec] at hok
    cases hfree : s.toHeap.free old with
    | error e =>
      rw [hfree] at hok
      cases hok
    | ok h' =>
      rw [hfree] at hok
      cases hok
      refine ⟨none, _, ?_, hinv, hserved.arenas, ?_, nofun⟩
      · simp only [exec, Heap.realloc, hfree, hzero, true_or, if_true]
        rfl
      · intro o size' ans' heq hne
        cases heq
        exact absurd hzero hne
  · rcases Heap.malloc_ok hi.heap hi.inUse (by omega) (hi.answer hfresh) with
      hnone | ⟨n, h', arenas', hsome, hal⟩
    · refine ⟨none, s, ?_, hi, hi.unchanged nofun⟩
      simp only [exec, Heap.realloc, hnone, hzero, bind, Except.bind]
      cases old <;> rfl
    · cases old with
      | none =>
        refine ⟨some n, ⟨h', n :: s.live⟩, ?_, of_heap hal.inv hal.inUse, ?_, nofun, nofun⟩
        · simp only [exec, Heap.realloc, if_neg hzero, hsome, bind, Except.bind, pure,
            Except.pure, Option.isSome_some, or_true, if_true]
          rfl
        · exact hi.arenas_kept hal hal.inv
      | some o =>
        have hlive : o ∈ s.live := by simpa using hold
        obtain ⟨a, ha, ho⟩ := hi.heap.live_in o hlive
        have ha' := hal.old a ha
        have hne : n ≠ o := fun heq => hal.notLive (heq ▸ hlive)
        obtain ⟨an, han, hn, hroom⟩ := hal.room
        have hinv₁ := hal.fill (fun j => h'.mem (o + j))
          (Nat.min_le_left size a.capacity)
        obtain ⟨h₂, arenas₂, hok, hfreed⟩ := Heap.freeBlock_ok hinv₁ hal.inUse
          (mem_cons_of_mem n hlive)
        have hleft : (n :: s.live).filter (· ≠ o) = n :: s.live.filter (· ≠ o) :=
          filter_cons_of_pos (by simpa using hne)
        have hfinv := hfreed.inv
        have hfuse := hfreed.inUse
        have hkept := hfreed.kept
        rw [hleft] at hfinv hfuse hkept
        refine ⟨some n, ⟨h₂, n :: s.live.filter (· ≠ o)⟩, ?_, of_heap hfinv hfuse, ?_, nofun, ?_⟩
        · simp only [exec, Heap.realloc, if_neg hzero, hsome, bind, Except.bind,
            Heap.blockSize_ok hal.inv ha' ho, hok, pure, Except.pure, Option.isSome_some, or_true,
            if_true]
          rfl
        · intro a₀ ha₀
          show a₀ ∈ h₂.arenas ↔ _
          rw [hfinv.arenas_eq]
          exact hkept a₀ (hal.old a₀ ha₀)
        · intro o' size' ans' n' heq hr a₀ ha₀ ho₀ j hj
          cases heq
          cases hr
          have haa : a₀ = a := hi.heap.arena_unique ha₀ ha ho₀ ho
          subst haa
          show h₂.mem (n + j) = s.mem (o + j)
          rw [hfreed.mem an han n hn mem_cons_self hne j (by omega)]
          rw [← hal.kept ha' ho (show j < a₀.capacity by omega)]
          exact @Mem.write_add h'.mem n (min size a₀.capacity) j (fun j => h'.mem (o + j)) hj

theorem store {x : Nat} {byte : UInt8} (hen : s.enabled (.store x byte) = true) :
    ∃ r s', s.exec (.store x byte) = .ok (r, s') ∧ MallocInv s' ∧
      Served s s' (.store x byte) r := by
  have hoff : OffHeaders s.arenas x := by
    simp only [enabled, writable, Bool.or_eq_true, all_eq_true,
      any_eq_true, Bool.not_eq_true', Arena.covers, decide_eq_false_iff_not,
      decide_eq_true_eq] at hen
    rcases hen with hout | ⟨a, ha, b, hb, -, hx⟩
    · intro a ha
      have := hout a ha
      have := (hi.heap.wf a ha).some
      omega
    · exact hi.heap.offHeaders ha hb hx
  have hinv : HeapInv { s.toHeap with mem := update s.mem x byte } s.live s.arenas := by
    refine hi.heap.setMem fun y hy => update_of_ne (fun heq => ?_) _ _
    exact hy (heq ▸ hoff)
  refine ⟨none, ⟨{ s.toHeap with mem := update s.mem x byte }, s.live⟩, rfl,
    of_heap hinv hi.inUse, fun a ha => ?_, nofun, nofun⟩
  show a ∈ Heap.arenas _ ↔ _
  rw [hinv.arenas_eq]
  exact ⟨fun _ => hi.inUse a ha, fun _ => ha⟩

/-- **The step lemma**: no assertion fails, and the arenas stay in order. -/
theorem exec {op : MallocOp} (hen : s.enabled op = true) (hfits : callocFits op = true) :
    ∃ r s', s.exec op = .ok (r, s') ∧ MallocInv s' ∧ Served s s' op r := by
  cases op with
  | malloc size ans => exact hi.malloc hen
  | calloc a b ans => exact hi.calloc hen hfits
  | realloc old size ans => exact hi.realloc hen
  | free p => exact hi.free hen
  | store x byte => exact hi.store hen

theorem step {s' : MallocState} {op : MallocOp} (hfits : callocFits op = true)
    (hs : s.step op = some s') : MallocInv s' := by
  unfold MallocState.step at hs
  split at hs
  · next hen =>
    obtain ⟨r, s₁, hok, hinv, -⟩ := hi.exec hen hfits
    rw [hok] at hs
    cases hs
    exact hinv
  · cases hs

end

end MallocInv

/-- **`malloc`'s arenas are consistent** in every run whose calls of `calloc` stay below the sizes
that wrap around. Live blocks overlap neither each other nor a header; `free_cnt` counts the blocks
on the free list; the blocks on a free list are blocks of arenas that are held. No assertion fails
in the next call, which keeps an arena exactly while it has a live block. `realloc` keeps the bytes
of the block, and the block itself when there is no memory. -/
theorem malloc_consistent {m : Mem} {ops : List MallocOp} {s : MallocState}
    (hruns : Runs (fun s op s' => MallocState.step s op = some s')
      (fun _ op => callocFits op = true) (MallocState.init m) ops s) :
    (∀ b ∈ s.live, ∃ a ∈ s.arenas, b ∈ a.blocks) ∧
    (∀ a ∈ s.arenas, ∀ b ∈ a.blocks, b ∈ s.live → ∀ a' ∈ s.arenas,
      (b + a.capacity ≤ a'.page ∨ a'.page + 12 ≤ b) ∧
      ∀ b' ∈ a'.blocks, b' ∈ s.live → b ≠ b' →
        b + a.capacity ≤ b' ∨ b' + a'.capacity ≤ b) ∧
    (∀ a ∈ s.arenas, ∀ i, a.desc = some i →
      s.mem.word (a.page + 8) = a.blocks.countP fun b => decide (b ∈ s.freeList i)) ∧
    (∀ i, ∀ b ∈ s.freeList i, ∃ a ∈ s.arenas, a.desc = some i ∧ b ∈ a.blocks) ∧
    ∀ op, s.enabled op = true → callocFits op = true →
      ∃ r s', s.exec op = .ok (r, s') ∧ Served s s' op r := by
  have hi : MallocInv s := by
    refine Runs.invariant (I := MallocInv) (fun hi hok hs => hi.step hok hs) hruns ?_
    exact MallocInv.of_heap (.init m) nofun
  have h := hi.heap
  refine ⟨h.live_in, fun a ha b hb _ a' ha' => ⟨h.block_off_header ha ha' hb, fun b' hb' _ hne =>
    h.blocks_apart ha ha' hb hb' hne⟩, fun a ha i hdesc => ?_, fun i b hb => ?_,
    fun op hen hfits => ?_⟩
  · rw [(h.header a ha).count]
    simp only [Arena.freeCnt, hdesc]
    apply countP_congr
    intro b hb
    rw [decide_eq_true_eq, decide_eq_true_eq, h.free_iff]
    refine ⟨fun hl => ⟨a, ha, hdesc, hb, hl⟩, fun ⟨_, _, _, _, hl⟩ => hl⟩
  · obtain ⟨a, ha, hdesc, hba, -⟩ := (h.free_iff i b).mp hb
    exact ⟨a, ha, hdesc, hba⟩
  · obtain ⟨r, s', hok, -, hserved⟩ := hi.exec hen hfits
    exact ⟨r, s', hok, hserved⟩

/-- A small block, one that is too big for an arena of blocks, and the small one resized. -/
def smallAndBig : List MallocOp :=
  [.malloc 16 (some 0xc0102000), .malloc 5000 (some 0xc0104000), .store 0xc010200c 7]

/-- The block grows from 16 to 40 bytes and moves to an arena of 64-byte blocks. -/
theorem malloc_consistent_resize :
    ∃ s s' : MallocState, ∃ n, 0xc010200c ∈ s.live ∧ s.mem 0xc010200c = 7 ∧
      s.exec (.realloc (some 0xc010200c) 40 (some 0xc0103000)) = .ok (some n, s') ∧
      ∀ a ∈ s.arenas, 0xc010200c ∈ a.blocks →
        ∀ j < min 40 a.capacity, s'.mem (n + j) = s.mem (0xc010200c + j) := by
  have hruns : Runs (fun s op s' => step s op = some s')
      (fun _ op => callocFits op = true) (init fun _ => 0) smallAndBig
      (smallAndBig.foldl (after step) (init fun _ => 0)) :=
    runs_of_allows (fun _ op => callocFits op) (fun _ _ h => h) (by decide +kernel)
  have hlive : 0xc010200c ∈
      (smallAndBig.foldl (after step) (init fun _ => 0)).live := by
    decide +kernel
  have hsome : (((smallAndBig.foldl (after step) (init fun _ => 0)).exec
      (.realloc (some 0xc010200c) 40 (some 0xc0103000))).toOption.any fun x => x.1.isSome) = true := by
    decide +kernel
  obtain ⟨r, s', hok, hserved⟩ := (malloc_consistent hruns).2.2.2.2
    (.realloc (some 0xc010200c) 40 (some 0xc0103000)) (by decide +kernel) rfl
  rw [hok] at hsome
  obtain ⟨n, rfl⟩ := Option.isSome_iff_exists.mp hsome
  exact ⟨_, s', n, hlive, by decide +kernel, hok, fun a ha hb =>
    hserved.resized _ _ _ n rfl rfl a ha hb⟩

/-- A block is live when `calloc` asks for a size that wraps around in `malloc` but not in `memset`. -/
theorem calloc_past_memory :
    ∃ s, Runs (fun s op s' => MallocState.step s op = some s') (fun _ _ => True)
        (MallocState.init fun _ => 0) [.malloc 16 (some 0xc0102000)] s ∧
      0xc010200c ∈ s.live ∧ s.enabled (.calloc 1 4294967285 (some 0xc0101000)) = true ∧
      s.exec (.calloc 1 4294967285 (some 0xc0101000)) = .error .fault :=
  ⟨[MallocOp.malloc 16 (some 0xc0102000)].foldl (after step) (init fun _ => 0),
    runs_of_allows (fun _ _ => true) (fun _ _ _ => trivial) (by decide +kernel),
    by decide +kernel, by decide +kernel, by rfl⟩

end Pintos
