import Mathlib.Data.List.Find
import Pintos.Kernel.HashMap

/-!
# Hash tables whose keys are told apart (`lib/kernel/hash.c`)

A table does not need an order on all keys to work, only one that tells the keys in it apart: an
element that `find_elem` takes for equal to a key has that very key. Then, for a sound table,
`hash_find` finds the element with the key, `hash_replace` and `hash_delete` take out no other
element, and the table stays sound, whether `rehash` gets memory or not.

The keys are read when a function is called, so that all this is about one moment;
`Hash.Sound.congr` goes from one moment to another in which the elements have the same keys.
-/

namespace Pintos

variable {α κ : Type} {f g : HashFuncs α κ} {h : Hash α} {k : κ} {x : α} {alloc : Bool}

/-- An element of the table that is equal to `k` for the table has the key `k`. -/
def Hash.TellsApart (f : HashFuncs α κ) (h : Hash α) (k : κ) : Prop :=
  ∀ x ∈ hashElems h, f.same k x = true → f.key x = k

namespace Hash.Sound

theorem congr (hs : Hash.Sound f h) (hhash : g.hash = f.hash)
    (hkey : ∀ x ∈ hashElems h, g.key x = f.key x) : Hash.Sound g h := by
  refine ⟨hs.pow2, fun i x hx => ?_, hs.count⟩
  have hbucket := hs.placed i x hx
  have hmem : x ∈ hashElems h := mem_hashElems.mpr ⟨i, hbucket ▸ findBucket_lt f h _, hx⟩
  rw [findBucket, hhash, hkey x hmem]
  exact hbucket

theorem hashFind_of_mem (hs : Hash.Sound f h) (ht : h.TellsApart f k)
    (hone : ∀ y ∈ hashElems h, f.key y = f.key x → y = x) (hx : x ∈ hashElems h)
    (hk : f.key x = k) (hself : f.same k x = true) : hashFind f h k = some x := by
  obtain ⟨i, -, hxi⟩ := mem_hashElems.mp hx
  have hbucket := hs.placed i x hxi
  rw [hk] at hbucket
  rw [hbucket] at hxi
  cases hfind : hashFind f h k with
  | none => exact absurd hself (List.find?_eq_none.mp hfind x hxi)
  | some y =>
    have hy := findElem_mem hfind
    have hkey : f.key y = k := ht y hy (List.find?_some hfind)
    rw [hone y hy (hkey.trans hk.symm)]

end Hash.Sound

theorem hashFind_congr (hhash : g.hash = f.hash) (hless : g.less = f.less)
    (hkey : ∀ x ∈ hashElems h, g.key x = f.key x) : hashFind g h k = hashFind f h k := by
  have hbucket : findBucket g h k = findBucket f h k := by rw [findBucket, findBucket, hhash]
  rw [hashFind, hashFind, hbucket]
  refine List.find?_congr fun x hx => ?_
  have hmem : x ∈ hashElems h := mem_hashElems.mpr ⟨_, findBucket_lt f h k, hx⟩
  rw [HashFuncs.same, HashFuncs.same, hless, hkey x hmem]

theorem hashFind_eq_none (ht : h.TellsApart f k) (hno : ∀ y ∈ hashElems h, f.key y ≠ k) :
    hashFind f h k = none := by
  cases hfind : hashFind f h k with
  | none => rfl
  | some y =>
    have hy := findElem_mem hfind
    exact absurd (ht y hy (List.find?_some hfind)) (hno y hy)

theorem hashReplace_of_none (hnone : hashFind f h (f.key x) = none) :
    hashReplace f alloc h x = rehash f alloc (insertElem h (findBucket f h (f.key x)) x) := by
  have hfind : findElem f h (findBucket f h (f.key x)) (f.key x) = none := hnone
  simp only [hashReplace, hfind]
  rfl

/-- `hash_replace` of an element whose key another one has: that one goes out. -/
theorem hashReplace_of_some {y : α} (hsome : hashFind f h (f.key x) = some y) :
    hashReplace f alloc h x =
      rehash f alloc (insertElem (removeElem f h (findBucket f h (f.key x)) (f.key x))
        (findBucket f h (f.key x)) x) := by
  have hfind : findElem f h (findBucket f h (f.key x)) (f.key x) = some y := hsome
  simp only [hashReplace, hfind]
  rfl

theorem hashElems_hashReplace_none (hnone : hashFind f h (f.key x) = none) :
    (hashElems (hashReplace f alloc h x)).Perm (x :: hashElems h) := by
  rw [hashReplace_of_none hnone]
  exact hashElems_rehash.trans (hashElems_insertElem (findBucket_lt f h _))

theorem hashElems_hashReplace_some {y : α} (hsome : hashFind f h (f.key x) = some y) :
    ∃ l, (hashElems h).Perm (y :: l) ∧ (hashElems (hashReplace f alloc h x)).Perm (x :: l) := by
  refine ⟨_, hashElems_removeElem (findBucket_lt f h _) hsome, ?_⟩
  rw [hashReplace_of_some hsome]
  exact hashElems_rehash.trans (hashElems_insertElem (findBucket_lt f h _))

theorem Hash.Sound.hashReplace (hs : Hash.Sound f h) : Hash.Sound f (hashReplace f alloc h x) := by
  cases hfind : hashFind f h (f.key x) with
  | none =>
    rw [hashReplace_of_none hfind]
    exact hs.insertElem.rehash
  | some y =>
    rw [hashReplace_of_some hfind]
    exact (hs.removeElem hfind).insertElem.rehash

theorem hashDelete_of_some (hsome : hashFind f h k = some x) :
    (hashDelete f alloc h k).2 = rehash f alloc (removeElem f h (findBucket f h k) k) := by
  have hfind : findElem f h (findBucket f h k) k = some x := hsome
  simp only [hashDelete, hfind]

theorem hashElems_hashDelete (hsome : hashFind f h k = some x) :
    (hashElems h).Perm (x :: hashElems (hashDelete f alloc h k).2) := by
  rw [hashDelete_of_some hsome]
  exact (hashElems_removeElem (findBucket_lt f h k) hsome).trans (hashElems_rehash.symm.cons x)

theorem Hash.Sound.hashDelete (hs : Hash.Sound f h) (hsome : hashFind f h k = some x) :
    Hash.Sound f (hashDelete f alloc h k).2 := by
  rw [hashDelete_of_some hsome]
  exact (hs.removeElem hsome).rehash

end Pintos
