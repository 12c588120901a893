import Mathlib.Data.List.Basic
import Mathlib.Data.Nat.Bitwise
import Mathlib.Logic.Function.Basic

/-!
# Chained hash tables (`lib/kernel/hash.c`)

A table is an array of buckets; a bucket is the list of its elements, front first.
Elements stand for the `struct hash_elem` pointers of the source, so their keys may
change while they are in the table: a key is read through `HashFuncs.key` at the time
of each call, and an element whose key changed stays in its old bucket.

Two keys are equal for the table when neither is less than the other
(`HashFuncs.same`). Nothing is assumed about `less` or `hash` here. `rehash` asks
`malloc` for the new bucket array; its answer is the argument `alloc`.
-/

namespace Pintos

open Function List

/-- `struct hash`: the element count and the bucket array, which is never empty. -/
structure Hash (α : Type) where
  elemCnt : Nat
  bucketCnt : Nat
  buckets : Nat → List α
  bucketCnt_pos : 0 < bucketCnt

/-- The functions a table is used with: the key an element has now, `h->hash` and `h->less`. -/
structure HashFuncs (α κ : Type) where
  key : α → κ
  hash : κ → Nat
  less : κ → κ → Bool

variable {α κ : Type}

/-- The test of `find_elem`. -/
def HashFuncs.same (f : HashFuncs α κ) (k : κ) (x : α) : Bool :=
  !f.less (f.key x) k && !f.less k (f.key x)

/-- `hash_init`. -/
def hashInit : Hash α := ⟨0, 4, fun _ => [], by decide⟩

/-- The elements in the order in which `hash_first` and `hash_next` return them. -/
def hashElems (h : Hash α) : List α := (List.range h.bucketCnt).flatMap h.buckets

def findBucket (f : HashFuncs α κ) (h : Hash α) (k : κ) : Nat := f.hash k &&& (h.bucketCnt - 1)

def findElem (f : HashFuncs α κ) (h : Hash α) (bucket : Nat) (k : κ) : Option α :=
  (h.buckets bucket).find? (f.same k)

def insertElem (h : Hash α) (bucket : Nat) (x : α) : Hash α :=
  { h with
    elemCnt := h.elemCnt + 1
    buckets := update h.buckets bucket (x :: h.buckets bucket) }

/-- `remove_elem` of the element that `find_elem` found in this bucket. -/
def removeElem (f : HashFuncs α κ) (h : Hash α) (bucket : Nat) (k : κ) : Hash α :=
  { h with
    elemCnt := h.elemCnt - 1
    buckets := update h.buckets bucket ((h.buckets bucket).eraseP (f.same k)) }

def turnOffLeast1Bit (x : Nat) : Nat := x &&& (x - 1)

def isPowerOf2 (x : Nat) : Bool := x != 0 && turnOffLeast1Bit x == 0

/-- The `while` loop of `rehash`. A round makes the count smaller, so `n` rounds are enough. -/
def roundToPowerOf2 : Nat → Nat → Nat
  | 0, n => n
  | fuel + 1, n => if isPowerOf2 n then n else roundToPowerOf2 fuel (turnOffLeast1Bit n)

/-- The bucket count `rehash` aims at: `BEST_ELEMS_PER_BUCKET` is 2, the minimum 4. -/
def newBucketCnt (elemCnt : Nat) : Nat :=
  let n := max 4 (elemCnt / 2)
  roundToPowerOf2 n n

variable {alloc : Bool} {f : HashFuncs α κ} {h : Hash α} {k : κ} {n : Nat} {x y : α}

theorem and_pred_lt {m : Nat} (h : 0 < m) : n &&& (m - 1) < m :=
  Nat.lt_of_le_of_lt Nat.and_le_right (by omega)

theorem roundToPowerOf2_pos {fuel : Nat} (h : 0 < n) : 0 < roundToPowerOf2 fuel n := by
  induction fuel generalizing n with
  | zero => exact h
  | succ fuel ih =>
    unfold roundToPowerOf2
    split
    · exact h
    · next hp =>
      -- a positive number that is no power of two keeps a bit
      apply ih
      have : turnOffLeast1Bit n ≠ 0 := by
        intro h0
        exact hp (by simp [isPowerOf2, h0]; omega)
      omega

theorem newBucketCnt_pos (n : Nat) : 0 < newBucketCnt n := roundToPowerOf2_pos (by omega)

/-- `rehash` moves the elements one by one, in table order, to the front of their new bucket. -/
def rehash (f : HashFuncs α κ) (alloc : Bool) (h : Hash α) : Hash α :=
  if newBucketCnt h.elemCnt = h.bucketCnt then h
  else if alloc then
    { h with
      bucketCnt := newBucketCnt h.elemCnt
      buckets := (hashElems h).foldl
        (fun bs x =>
          let i := f.hash (f.key x) &&& (newBucketCnt h.elemCnt - 1)
          update bs i (x :: bs i))
        (fun _ => [])
      bucketCnt_pos := newBucketCnt_pos _ }
  else h

def hashFind (f : HashFuncs α κ) (h : Hash α) (k : κ) : Option α :=
  findElem f h (findBucket f h k) k

/-- `hash_insert`: `new` goes in unless an equal element is found, which is returned. -/
def hashInsert (f : HashFuncs α κ) (alloc : Bool) (h : Hash α) (new : α) : Option α × Hash α :=
  let bucket := findBucket f h (f.key new)
  let old := findElem f h bucket (f.key new)
  (old, rehash f alloc (if old.isNone then insertElem h bucket new else h))

/-- `hash_replace`: `new` goes in, an equal element found in its bucket goes out. -/
def hashReplace (f : HashFuncs α κ) (alloc : Bool) (h : Hash α) (new : α) : Hash α :=
  let bucket := findBucket f h (f.key new)
  let h := if (findElem f h bucket (f.key new)).isSome then removeElem f h bucket (f.key new) else h
  rehash f alloc (insertElem h bucket new)

/-- `hash_delete`: the element found equal to `k` goes out. -/
def hashDelete (f : HashFuncs α κ) (alloc : Bool) (h : Hash α) (k : κ) : Option α × Hash α :=
  let bucket := findBucket f h k
  match findElem f h bucket k with
  | some found => (some found, rehash f alloc (removeElem f h bucket k))
  | none => (none, h)

/-! ## Iterators -/

/-- `struct hash_iterator`: the bucket, and its elements after `i->elem`. -/
structure HashIterator (α : Type) where
  bucket : Nat
  rest : List α

open HashIterator

/-- `hash_first`: before the first element of the first bucket. -/
def hashFirst (h : Hash α) : HashIterator α := ⟨0, h.buckets 0⟩

/-- `hash_next`: the next element and the iterator at it, `none` at the end of the table. -/
def hashNext (h : Hash α) (i : HashIterator α) : Option (α × HashIterator α) :=
  match i.rest with
  | x :: xs => some (x, ⟨i.bucket, xs⟩)
  | [] =>
    if h.bucketCnt ≤ i.bucket + 1 then none
    else hashNext h ⟨i.bucket + 1, h.buckets (i.bucket + 1)⟩
termination_by h.bucketCnt - i.bucket

/-- The elements that an iterator has still to return. -/
def HashIterator.remaining (h : Hash α) (i : HashIterator α) : List α :=
  i.rest ++ (List.range' (i.bucket + 1) (h.bucketCnt - (i.bucket + 1))).flatMap h.buckets

theorem remaining_hashFirst (h : Hash α) : (hashFirst h).remaining h = hashElems h := by
  have hrange : List.range h.bucketCnt = 0 :: List.range' 1 (h.bucketCnt - 1) := by
    have hcnt : h.bucketCnt = h.bucketCnt - 1 + 1 := by
      have := h.bucketCnt_pos
      omega
    rw [range_eq_range']
    conv_lhs => rw [hcnt]
    rfl
  rw [hashElems, hrange, flatMap_cons]
  rfl

theorem hashNext_eq (h : Hash α) (i : HashIterator α) :
    match i.remaining h with
    | [] => hashNext h i = none
    | x :: xs => ∃ i', hashNext h i = some (x, i') ∧ i'.remaining h = xs := by
  fun_induction hashNext h i with
  | case1 i x xs hrest =>
    have hrem : i.remaining h = x :: remaining h ⟨i.bucket, xs⟩ := by
      simp only [remaining, hrest, cons_append]
    rw [hrem]
    exact ⟨_, rfl, rfl⟩
  | case2 i hrest hend =>
    have hrem : i.remaining h = [] := by
      have hnone : h.bucketCnt - (i.bucket + 1) = 0 := by omega
      rw [remaining, hrest, hnone]
      rfl
    rw [hrem]
  | case3 i hrest hmore ih =>
    -- the next bucket's elements are the first of those that remain
    have hrem : i.remaining h =
        remaining h ⟨i.bucket + 1, h.buckets (i.bucket + 1)⟩ := by
      have hsucc : h.bucketCnt - (i.bucket + 1) = h.bucketCnt - (i.bucket + 1 + 1) + 1 := by omega
      rw [remaining, remaining, hrest, hsucc, List.range'_succ, flatMap_cons]
      rfl
    rw [hrem]
    exact ih

theorem hashNext_some {i i' : HashIterator α} (hn : hashNext h i = some (x, i')) :
    i.remaining h = x :: i'.remaining h := by
  have hnext := hashNext_eq h i
  split at hnext
  · rw [hnext] at hn
    cases hn
  · next y ys hrem =>
    obtain ⟨i₁, hn₁, rfl⟩ := hnext
    rw [hn₁] at hn
    cases hn
    exact hrem

theorem hashNext_none {i : HashIterator α} (hn : hashNext h i = none) :
    i.remaining h = [] := by
  have hnext := hashNext_eq h i
  split at hnext
  · next hrem => exact hrem
  · obtain ⟨i₁, hn₁, -⟩ := hnext
    rw [hn₁] at hn
    cases hn

/-! ## Which elements a table has -/

theorem mem_hashElems :
    x ∈ hashElems h ↔ ∃ i < h.bucketCnt, x ∈ h.buckets i := by
  simp [hashElems, mem_flatMap]

theorem mem_foldl_push (idx : α → Nat) (xs : List α) (bs : Nat → List α) :
    (∃ i, x ∈ xs.foldl (fun bs y => update bs (idx y) (y :: bs (idx y))) bs i) ↔
      x ∈ xs ∨ ∃ i, x ∈ bs i := by
  induction xs generalizing bs with
  | nil => simp
  | cons y ys ih =>
    rw [foldl_cons, ih, mem_cons]
    have hpush : (∃ i, x ∈ update bs (idx y) (y :: bs (idx y)) i) ↔
        x = y ∨ ∃ i, x ∈ bs i := by
      constructor
      · rintro ⟨i, hi⟩
        by_cases h : i = idx y
        · subst h
          rw [update_self, mem_cons] at hi
          exact hi.imp id fun h => ⟨_, h⟩
        · rw [update_of_ne h] at hi
          exact .inr ⟨i, hi⟩
      · rintro (rfl | ⟨i, hi⟩)
        · exact ⟨idx x, by simp⟩
        · by_cases h : i = idx y
          · subst h
            exact ⟨idx y, by simp [hi]⟩
          · exact ⟨i, by rwa [update_of_ne h]⟩
    rw [hpush]
    tauto

theorem foldl_push_bounded {idx : α → Nat} (hidx : ∀ x, idx x < n) (xs : List α)
    (bs : Nat → List α) (hbs : ∀ i, n ≤ i → bs i = []) :
    ∀ i, n ≤ i → xs.foldl (fun bs y => update bs (idx y) (y :: bs (idx y))) bs i = [] := by
  induction xs generalizing bs with
  | nil => exact hbs
  | cons y ys ih =>
    apply ih
    intro i hi
    have hne : i ≠ idx y := fun h => by have := hidx y; omega
    show update bs (idx y) (y :: bs (idx y)) i = []
    rw [update_of_ne hne]
    exact hbs i hi

theorem mem_rehash :
    x ∈ hashElems (rehash f alloc h) ↔ x ∈ hashElems h := by
  unfold rehash
  split
  · rfl
  · split
    · rw [mem_hashElems]
      have hidx : ∀ y, f.hash (f.key y) &&& (newBucketCnt h.elemCnt - 1) < newBucketCnt h.elemCnt :=
        fun y => and_pred_lt (newBucketCnt_pos _)
      have hfold := mem_foldl_push (x := x)
        (fun y => f.hash (f.key y) &&& (newBucketCnt h.elemCnt - 1)) (hashElems h) (fun _ => [])
      have hlt := foldl_push_bounded hidx (hashElems h) (fun _ => []) (fun _ _ => rfl)
      simp only [not_mem_nil, exists_false, or_false] at hfold
      rw [← hfold]
      constructor
      · rintro ⟨i, -, hi⟩
        exact ⟨i, hi⟩
      · rintro ⟨i, hi⟩
        refine ⟨i, ?_, hi⟩
        by_contra hge
        rw [hlt i (Nat.le_of_not_lt hge)] at hi
        cases hi
    · rfl

theorem mem_insertElem {b : Nat} :
    y ∈ hashElems (insertElem h b x) → y = x ∨ y ∈ hashElems h := by
  rw [mem_hashElems, mem_hashElems]
  rintro ⟨i, hi, hy⟩
  by_cases hb : i = b
  · subst hb
    simp only [insertElem, update_self, mem_cons] at hy
    exact hy.imp id fun hy => ⟨i, hi, hy⟩
  · simp only [insertElem, update_of_ne hb] at hy
    exact .inr ⟨i, hi, hy⟩

theorem mem_removeElem {b : Nat} :
    y ∈ hashElems (removeElem f h b k) → y ∈ hashElems h := by
  rw [mem_hashElems, mem_hashElems]
  rintro ⟨i, hi, hy⟩
  refine ⟨i, hi, ?_⟩
  by_cases hb : i = b
  · subst hb
    simp only [removeElem, update_self] at hy
    exact mem_of_mem_eraseP hy
  · simpa only [removeElem, update_of_ne hb] using hy

theorem mem_hashReplace
    (hy : y ∈ hashElems (hashReplace f alloc h x)) : y = x ∨ y ∈ hashElems h := by
  unfold hashReplace at hy
  rw [mem_rehash] at hy
  refine (mem_insertElem hy).imp id fun hy => ?_
  split at hy
  · exact mem_removeElem hy
  · exact hy

theorem mem_hashDelete
    (hy : y ∈ hashElems (hashDelete f alloc h k).2) : y ∈ hashElems h := by
  simp only [hashDelete] at hy
  split at hy
  · rw [mem_rehash] at hy
    exact mem_removeElem hy
  · exact hy

theorem mem_eraseP_of_find?_ne {p : α → Bool} {l : List α} (hx : x ∈ l)
    (hne : l.find? p ≠ some x) : x ∈ l.eraseP p := by
  induction l with
  | nil => exact hx
  | cons y ys ih =>
    by_cases hp : p y = true
    · rw [eraseP_cons_of_pos hp]
      rw [List.find?_cons_of_pos hp] at hne
      exact (mem_cons.mp hx).resolve_left fun h => hne (h ▸ rfl)
    · rw [eraseP_cons_of_neg hp]
      rw [List.find?_cons_of_neg hp] at hne
      exact (mem_cons.mp hx).elim (fun h => h ▸ mem_cons_self)
        fun h => mem_cons_of_mem _ (ih h hne)

theorem findElem_mem
    (hx : findElem f h (findBucket f h k) k = some x) : x ∈ hashElems h :=
  mem_hashElems.mpr ⟨_, and_pred_lt h.bucketCnt_pos, mem_of_find?_eq_some hx⟩

theorem mem_hashDelete_of_ne
    (hy : y ∈ hashElems h) (hne : findElem f h (findBucket f h k) k ≠ some y) :
    y ∈ hashElems (hashDelete f alloc h k).2 := by
  simp only [hashDelete]
  split
  · rw [mem_rehash, mem_hashElems]
    obtain ⟨i, hi, hyi⟩ := mem_hashElems.mp hy
    refine ⟨i, hi, ?_⟩
    by_cases hb : i = findBucket f h k
    · subst hb
      simp only [removeElem, update_self]
      exact mem_eraseP_of_find?_ne hyi hne
    · simpa only [removeElem, update_of_ne hb] using hyi
  · exact hy

end Pintos
