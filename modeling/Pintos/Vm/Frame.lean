import Pintos.Kernel.Hash

/-!
# The frame table (`vm/frame.c`)

The frame table is a hash table of entries `(thread, vaddr, pin_sema)`. It does not
say which frame an entry is about: `evict_page` finds the frame through the victim's
page directory.

`FrameTableOps` are the table operations that the functions of `vm/frame.c` are made
of, one for each section they run between two uses of other modules. `FrameTable` is the
table of the source. What the paging code guarantees without looking into the table is
proved for every `FrameTableOps`.

* `frame_less_than` orders two entries by address *and* thread, so that two entries of
  one thread are always equal for the hash table (`same_of_thread_eq`).
* `evict_page` searches for a victim with an iterator whose inner `e` hides the outer one,
  so that the element it takes out and puts back is the first of the table, whichever
  entry it chose; the chosen entry's key changes while it stays in its bucket.
* `select_eq_loop`: the search, written here as one of a list, is that loop over the iterator.
-/

namespace Pintos

open Function List

/-- What `evict_page` holds after its search: `e` and `entry`. -/
structure Selection where
  first : Nat
  chosen : Nat
  deriving DecidableEq, Repr

/-- The sections of `vm/frame.c` on the table. Entries are named by numbers, as the source names
them by pointers. The Boolean arguments say whether `rehash` gets memory. -/
class FrameTableOps (F : Type) where
  /-- The entry that `get_user_page` will allocate next. -/
  fresh : F → Nat
  /-- `get_user_page`: a new entry, not pinned, goes in by `hash_replace`. -/
  insert : Bool → F → Nat → Nat → F
  /-- `evict_page`: the search; the chosen entry's `pin_sema` is taken. -/
  select : F → Option (Selection × F)
  /-- `entry->thread`. -/
  thread : F → Nat → Nat
  /-- `entry->vaddr`. -/
  vaddr : F → Nat → Nat
  /-- `evict_page`: `hash_delete`, the new key, `hash_replace`. -/
  rekey : Bool → F → Selection → Nat → Nat → Option F
  /-- `set_pinned`: `hash_find`. -/
  find : F → Nat → Nat → Option Nat
  /-- `sema_try_down (&entry->pin_sema)`. -/
  tryDown : F → Nat → F
  /-- `sema_up (&entry->pin_sema)`. -/
  up : F → Nat → F
  /-- `free_frame`. -/
  free : Bool → F → Nat → Nat → Option F
  /-- The keys of the entries in the table. -/
  keys : F → List (Nat × Nat)

/-- `struct ft_entry`. -/
structure FtEntry where
  thread : Nat
  vaddr : Nat
  pinSema : Nat
  deriving DecidableEq, Repr

/-- The table `ft` and the entries ever allocated; `next` is the next one. -/
structure FrameTable where
  ft : Hash Nat
  entry : Nat → FtEntry
  next : Nat
  allocated : ∀ i ∈ hashElems ft, i < next

/-- `frame_table_init`. -/
def frameTableInit : FrameTable where
  ft := hashInit
  entry _ := ⟨0, 0, 0⟩
  next := 0
  allocated i hi := by
    obtain ⟨j, -, hj⟩ := mem_hashElems.mp hi
    cases hj

/-- `hash_bytes`: the 32-bit FNV hash. -/
def hashBytes (buf : List Nat) : Nat :=
  buf.foldl (fun hash b => hash * 16777619 % 4294967296 ^^^ b) 2166136261

/-- The bytes of a 32-bit word in memory. -/
def wordBytes (x : Nat) : List Nat :=
  [x % 256, x / 256 % 256, x / 65536 % 256, x / 16777216 % 256]

/-- `frame_hash`: the word in the low half of the identifier is the thread. -/
def frameHash (key : Nat × Nat) : Nat := hashBytes (wordBytes key.1 ++ wordBytes key.2)

/-- `frame_less_than`, on keys `(thread, vaddr)`. -/
def frameLessThan (a b : Nat × Nat) : Bool := a.2 < b.2 && a.1 < b.1

def FtEntry.key (e : FtEntry) : Nat × Nat := (e.thread, e.vaddr)

/-- The functions of the table while its entries are `entry`. -/
def frameFuncs (entry : Nat → FtEntry) : HashFuncs Nat (Nat × Nat) where
  key i := (entry i).key
  hash := frameHash
  less := frameLessThan

namespace FrameTable

/-- `pin_sema` of entry `i` gets the value `n`. -/
def setPin (t : FrameTable) (i n : Nat) : FrameTable :=
  { t with entry := update t.entry i { t.entry i with pinSema := n } }

/-- The entry of `get_user_page`. -/
def insert (alloc : Bool) (t : FrameTable) (thread vaddr : Nat) : FrameTable where
  ft := hashReplace (frameFuncs (update t.entry t.next ⟨thread, vaddr, 1⟩)) alloc t.ft t.next
  entry := update t.entry t.next ⟨thread, vaddr, 1⟩
  next := t.next + 1
  allocated i hi := by
    rcases mem_hashReplace hi with rfl | hi
    · exact Nat.lt_succ_self _
    · exact Nat.lt_succ_of_lt (t.allocated i hi)

/-- `sema_try_down (&entry->pin_sema)`, the result apart. -/
def tryDown (t : FrameTable) (i : Nat) : FrameTable :=
  t.setPin i ((t.entry i).pinSema - 1)

/-- `sema_up (&entry->pin_sema)`. -/
def up (t : FrameTable) (i : Nat) : FrameTable :=
  t.setPin i ((t.entry i).pinSema + 1)

/-- The loop of `evict_page`. When no entry can be taken `hash_next` returns null, and the
kernel faults on `pin_sema` of a null entry. -/
def select (t : FrameTable) : Option (Selection × FrameTable) :=
  match hashElems t.ft with
  | [] => none
  | first :: rest =>
    match (first :: rest).find? fun i => 0 < (t.entry i).pinSema with
    | none => none
    | some i => some (⟨first, i⟩, t.tryDown i)

/-- The end of `evict_page`. `hash_delete` may take out another entry than `e`, one that is equal to
it for the table. If `e` is still linked when `hash_replace` links it again the lists are
corrupted: `none`. -/
def rekey (alloc : Bool) (t : FrameTable) (s : Selection) (thread vaddr : Nat) : Option FrameTable :=
  let del := (hashDelete (frameFuncs t.entry) alloc t.ft (t.entry s.first).key).2
  let entry := update t.entry s.chosen
    { t.entry s.chosen with thread := thread, vaddr := vaddr }
  let ft := hashReplace (frameFuncs entry) alloc del s.first
  if h : s.first < t.next ∧ (hashElems ft).count s.first = 1 then
    some
      { t with
        ft := ft
        entry := entry
        allocated := fun i hi => by
          rcases mem_hashReplace hi with rfl | hi
          · exact h.1
          · exact t.allocated i (mem_hashDelete hi) }
  else none

/-- `hash_find` for the key `(thread, vaddr)`. -/
def find (t : FrameTable) (thread vaddr : Nat) : Option Nat :=
  hashFind (frameFuncs t.entry) t.ft (thread, vaddr)

/-- `free_frame`. An entry that is freed but still linked corrupts the table: `none`. -/
def free (alloc : Bool) (t : FrameTable) (thread vaddr : Nat) : Option FrameTable :=
  match t.find thread vaddr with
  | none => some t
  | some i =>
    let ft := (hashDelete (frameFuncs t.entry) alloc t.ft (t.entry i).key).2
    if i ∈ hashElems ft then none
    else some { t with ft := ft, allocated := fun j hj => t.allocated j (mem_hashDelete hj) }

/-- The entries in the table. -/
def elems (t : FrameTable) : List FtEntry := (hashElems t.ft).map t.entry

end FrameTable

instance : FrameTableOps FrameTable where
  fresh t := t.next
  insert := FrameTable.insert
  select := FrameTable.select
  thread t i := (t.entry i).thread
  vaddr t i := (t.entry i).vaddr
  rekey := FrameTable.rekey
  find := FrameTable.find
  tryDown := FrameTable.tryDown
  up := FrameTable.up
  free := FrameTable.free
  keys t := t.elems.map FtEntry.key

/-- Entries of one thread are equal for the table, whatever their addresses. -/
theorem same_of_thread_eq (entry : Nat → FtEntry) {thread vaddr i : Nat}
    (h : (entry i).thread = thread) : (frameFuncs entry).same (thread, vaddr) i = true := by
  subst h
  simp [HashFuncs.same, frameFuncs, frameLessThan, FtEntry.key]

/-! ## A table gains only the keys it is given -/

open FrameTableOps in
/-- The keys in the table after an operation were there before, or are the operation's own. -/
class LawfulFrameTable (F : Type) [FrameTableOps F] : Prop where
  select_mem {t t' : F} {s : Selection} (h : select t = some (s, t')) :
    (thread t' s.chosen, vaddr t' s.chosen) ∈ keys t
  insert_keys {a : Bool} {t : F} {th va : Nat} {k : Nat × Nat} (h : k ∈ keys (insert a t th va)) :
    k = (th, va) ∨ k ∈ keys t
  evict_keys {a : Bool} {t t₁ t' : F} {s : Selection} {th va : Nat} {k : Nat × Nat}
    (h₁ : select t = some (s, t₁)) (h₂ : rekey a t₁ s th va = some t') (hk : k ∈ keys t') :
    k = (th, va) ∨ k ∈ keys t
  tryDown_keys {t : F} {i : Nat} {k : Nat × Nat} (hk : k ∈ keys (tryDown t i)) : k ∈ keys t
  up_keys {t : F} {i : Nat} {k : Nat × Nat} (hk : k ∈ keys (up t i)) : k ∈ keys t
  free_keys {a : Bool} {t t' : F} {th va : Nat} {k : Nat × Nat} (h : free a t th va = some t')
    (hk : k ∈ keys t') : k ∈ keys t

namespace FrameTable

variable {t t' : FrameTable}

theorem mem_keys {k : Nat × Nat} :
    k ∈ FrameTableOps.keys t ↔ ∃ i ∈ hashElems t.ft, (t.entry i).key = k := by
  show k ∈ (t.elems.map FtEntry.key) ↔ _
  simp [elems]

@[simp] theorem key_setPin (t : FrameTable) (i n j : Nat) :
    ((t.setPin i n).entry j).key = (t.entry j).key := by
  unfold setPin
  by_cases hj : j = i
  · subst hj
    simp [FtEntry.key]
  · simp [hj]

theorem mem_keys_setPin {i n : Nat} {k : Nat × Nat}
    (hk : k ∈ FrameTableOps.keys (t.setPin i n)) : k ∈ FrameTableOps.keys t := by
  rw [mem_keys] at hk ⊢
  obtain ⟨j, hj, rfl⟩ := hk
  exact ⟨j, hj, (key_setPin t i n j).symm⟩

theorem select_some {s : Selection} (h : t.select = some (s, t')) :
    (hashElems t.ft).head? = some s.first ∧ s.chosen ∈ hashElems t.ft ∧
      0 < (t.entry s.chosen).pinSema ∧ t' = t.tryDown s.chosen := by
  unfold select at h
  split at h
  · cases h
  · next first rest hel =>
    split at h
    · cases h
    · next i hi =>
      cases h
      rw [hel]
      exact ⟨rfl, mem_of_find?_eq_some hi, by simpa using find?_some hi, rfl⟩

theorem select_eq_none :
    t.select = none ↔ ∀ i ∈ hashElems t.ft, (t.entry i).pinSema = 0 := by
  unfold select
  split
  · next hel => exact iff_of_true rfl (hel ▸ nofun)
  · next first rest hel =>
    rw [hel]
    split
    · next hfind => simpa using hfind
    · next i hfind =>
      refine iff_of_false nofun fun hall => ?_
      have hpos : 0 < (t.entry i).pinSema := by simpa using find?_some hfind
      exact absurd (hall i (mem_of_find?_eq_some hfind)) (by omega)

/-! ### The search of `evict_page` -/

/-- The `while` loop of `evict_page`, with `entry` at `i`; `none` if it gets to the null pointer that
`hash_next` returns at the end of the table. -/
def victimLoop (t : FrameTable) (it : HashIterator Nat) (i : Nat) : Option Nat :=
  if 0 < (t.entry i).pinSema then some i
  else
    match _hn : hashNext t.ft it with
    | some (j, it') => victimLoop t it' j
    | none => none
termination_by (it.remaining t.ft).length
decreasing_by
  rw [hashNext_some _hn]
  exact Nat.lt_succ_self _

theorem victimLoop_eq (t : FrameTable) (it : HashIterator Nat) (i : Nat) :
    t.victimLoop it i = (i :: it.remaining t.ft).find? fun i => 0 < (t.entry i).pinSema := by
  fun_induction victimLoop t it i with
  | case1 it i hpos => rw [find?_cons_of_pos (by simpa using hpos)]
  | case2 it i hpos j it' hn ih =>
    rw [find?_cons_of_neg (by simpa using hpos), hashNext_some hn, ih]
  | case3 it i hpos hn =>
    rw [find?_cons_of_neg (by simpa using hpos), hashNext_none hn]
    rfl

/-- The search is the loop over the iterator. -/
theorem select_eq_loop (t : FrameTable) :
    t.select = (hashNext t.ft (hashFirst t.ft)).bind fun e =>
      (t.victimLoop e.2 e.1).map fun i => (⟨e.1, i⟩, t.tryDown i) := by
  unfold select
  cases hn : hashNext t.ft (hashFirst t.ft) with
  | none =>
    rw [← remaining_hashFirst, hashNext_none hn]
    rfl
  | some e =>
    rw [← remaining_hashFirst, hashNext_some hn, Option.bind_some, victimLoop_eq]
    simp only
    split
    · next hfind =>
      rw [hfind]
      rfl
    · next i hfind =>
      rw [hfind]
      rfl

theorem rekey_some {a : Bool} {s : Selection} {th va : Nat}
    (h : t.rekey a s th va = some t') :
    t'.entry = update t.entry s.chosen
        { t.entry s.chosen with thread := th, vaddr := va } ∧
      t'.next = t.next ∧ ∀ i ∈ hashElems t'.ft, i = s.first ∨ i ∈ hashElems t.ft := by
  unfold rekey at h
  simp only at h
  split at h
  · cases h
    exact ⟨rfl, rfl, fun i hi => (mem_hashReplace hi).imp id mem_hashDelete⟩
  · cases h

theorem free_some {a : Bool} {th va : Nat} (h : t.free a th va = some t') :
    t'.entry = t.entry ∧ t'.next = t.next ∧ ∀ i ∈ hashElems t'.ft, i ∈ hashElems t.ft := by
  unfold free at h
  split at h
  · cases h
    exact ⟨rfl, rfl, fun i hi => hi⟩
  · simp only at h
    split at h
    · cases h
    · cases h
      exact ⟨rfl, rfl, fun i hi => mem_hashDelete hi⟩

end FrameTable

open FrameTable in
instance : LawfulFrameTable FrameTable where
  select_mem h := by
    obtain ⟨-, hmem, -, rfl⟩ := select_some h
    exact mem_keys.mpr ⟨_, hmem, (key_setPin ..).symm⟩
  insert_keys {a t th va k} h := by
    obtain ⟨i, hi, rfl⟩ := mem_keys.mp h
    rcases mem_hashReplace hi with rfl | hi
    · exact .inl (by simp [FrameTableOps.insert, FrameTable.insert, FtEntry.key])
    · refine .inr (mem_keys.mpr ⟨i, hi, ?_⟩)
      have hne : i ≠ t.next := Nat.ne_of_lt (t.allocated i hi)
      simp [FrameTableOps.insert, FrameTable.insert, hne]
  evict_keys {a t t₁ t' s th va k} h₁ h₂ hk := by
    obtain ⟨hfirst, -, -, rfl⟩ := select_some h₁
    obtain ⟨hentry, -, hmem⟩ := rekey_some h₂
    obtain ⟨i, hi, rfl⟩ := mem_keys.mp hk
    by_cases hc : i = s.chosen
    · exact .inl (by simp [hentry, hc, FtEntry.key])
    · refine .inr (mem_keys.mpr ⟨i, ?_, ?_⟩)
      · rcases hmem i hi with rfl | hi
        · exact List.mem_of_mem_head? hfirst
        · exact hi
      · rw [hentry, update_of_ne hc]
        exact (key_setPin ..).symm
  tryDown_keys hk := mem_keys_setPin hk
  up_keys hk := mem_keys_setPin hk
  free_keys {a t t' th va k} h hk := by
    obtain ⟨hentry, -, hmem⟩ := free_some h
    obtain ⟨i, hi, rfl⟩ := mem_keys.mp hk
    exact mem_keys.mpr ⟨i, hmem i hi, by rw [hentry]⟩

end Pintos
