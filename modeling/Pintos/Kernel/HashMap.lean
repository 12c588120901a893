import Pintos.Kernel.Hash
import Pintos.Lib.KeyedList

/-!
# The hash table as a finite map

What `lib/kernel/hash.c` asks of its callers is `HashFuncs.Lawful`: `less` is a strict weak
order, and keys that are equal under it have equal hashes. Then a table is a finite map from
classes of equal keys to elements: `hash_insert`, `hash_replace`, `hash_find` and
`hash_delete` return what the map's operations return (`hash_refines_finmap`), whether the
allocations inside `rehash` succeed or fail.
-/

namespace Pintos

open Lib Function List Finmap

variable {α κ : Type} {f : HashFuncs α κ} {h : Hash α}

/-- Neither key is less than the other. -/
def HashFuncs.equal (f : HashFuncs α κ) (a b : κ) : Bool := !f.less a b && !f.less b a

/-- What the callers of a table guarantee about its functions. -/
structure HashFuncs.Lawful (f : HashFuncs α κ) : Prop where
  irrefl : ∀ a, f.less a a = false
  trans : ∀ a b c, f.less a b = true → f.less b c = true → f.less a c = true
  equal_trans : ∀ a b c, f.equal a b = true → f.equal b c = true → f.equal a c = true
  hash_eq : ∀ a b, f.equal a b = true → f.hash a = f.hash b

theorem HashFuncs.equal_comm (a b : κ) : f.equal a b = f.equal b a := Bool.and_comm _ _

/-- Keys up to equality under `less`. -/
def HashFuncs.keySetoid (f : HashFuncs α κ) (hf : f.Lawful) : Setoid κ where
  r a b := f.equal a b = true
  iseqv :=
    { refl := fun a => by simp [equal, hf.irrefl]
      symm := fun {a b} h => by rwa [equal_comm]
      trans := fun {a b c} hab hbc => hf.equal_trans a b c hab hbc }

/-- The class of a key. -/
abbrev HashFuncs.KeyClass (f : HashFuncs α κ) (hf : f.Lawful) : Type := Quotient (f.keySetoid hf)

def HashFuncs.classOf (f : HashFuncs α κ) (hf : f.Lawful) (k : κ) : f.KeyClass hf :=
  Quotient.mk (f.keySetoid hf) k

instance (hf : f.Lawful) : DecidableEq (f.KeyClass hf) :=
  @Quotient.decidableEq κ (f.keySetoid hf) fun a b => inferInstanceAs (Decidable (f.equal a b = true))

theorem HashFuncs.classOf_eq (hf : f.Lawful) {a b : κ} :
    f.classOf hf a = f.classOf hf b ↔ f.equal a b = true :=
  ⟨fun heq => Quotient.exact (s := f.keySetoid hf) heq,
    fun heq => Quotient.sound (s := f.keySetoid hf) heq⟩

variable {alloc : Bool} {b n : Nat} {x : α}

theorem HashFuncs.same_iff (hf : f.Lawful) {k : κ} :
    f.same k x = true ↔ f.classOf hf (f.key x) = f.classOf hf k := (f.classOf_eq hf).symm

/-! ## Operations -/

/-- A call of one of the four operations; `alloc` is what `malloc` answers inside `rehash`. -/
inductive HashOp (α κ : Type)
  | insert (new : α) (alloc : Bool)
  | replace (new : α) (alloc : Bool)
  | find (k : κ)
  | delete (k : κ) (alloc : Bool)

/-- The element a call returns, and the table after it. -/
def hashStep (f : HashFuncs α κ) (h : Hash α) : HashOp α κ → Option α × Hash α
  | .insert new alloc => hashInsert f alloc h new
  | .replace new alloc => (hashFind f h (f.key new), hashReplace f alloc h new)
  | .find k => (hashFind f h k, h)
  | .delete k alloc => hashDelete f alloc h k

/-- A sequence of calls: what they return, and the table after them. -/
def hashRun (f : HashFuncs α κ) : Hash α → List (HashOp α κ) → List (Option α) × Hash α
  | h, [] => ([], h)
  | h, op :: ops =>
    let r := hashStep f h op
    let rest := hashRun f r.2 ops
    (r.1 :: rest.1, rest.2)

/-- The same call on a finite map. -/
def mapStep (f : HashFuncs α κ) (hf : f.Lawful) (m : Finmap fun _ : f.KeyClass hf => α) :
    HashOp α κ → Option α × Finmap fun _ : f.KeyClass hf => α
  | .insert new _ =>
    let c := f.classOf hf (f.key new)
    (m.lookup c, if (m.lookup c).isNone then m.insert c new else m)
  | .replace new _ =>
    let c := f.classOf hf (f.key new)
    (m.lookup c, m.insert c new)
  | .find k => (m.lookup (f.classOf hf k), m)
  | .delete k _ => (m.lookup (f.classOf hf k), m.erase (f.classOf hf k))

def mapRun (f : HashFuncs α κ) (hf : f.Lawful) :
    (Finmap fun _ : f.KeyClass hf => α) → List (HashOp α κ) →
      List (Option α) × Finmap fun _ : f.KeyClass hf => α
  | m, [] => ([], m)
  | m, op :: ops =>
    let r := mapStep f hf m op
    let rest := mapRun f hf r.2 ops
    (r.1 :: rest.1, rest.2)

/-! ## The elements of a table -/

theorem flatMap_push {bs : Nat → List α} (hb : b < n) :
    ((List.range n).flatMap (update bs b (x :: bs b))).Perm
      (x :: (List.range n).flatMap bs) := by
  induction n with
  | zero => omega
  | succ n ih =>
    rw [range_succ, flatMap_append, flatMap_append, flatMap_singleton, flatMap_singleton]
    by_cases hn : b = n
    · subst hn
      have hsame : (range b).flatMap (update bs b (x :: bs b)) =
          (range b).flatMap bs := by
        apply flatMap_congr
        intro i hi
        rw [update_of_ne (by have := mem_range.mp hi; omega)]
      rw [hsame, update_self]
      exact perm_middle
    · rw [update_of_ne (by omega)]
      exact (ih (by omega)).append_right _

theorem flatMap_foldl_push (idx : α → Nat) (hidx : ∀ x, idx x < n) (xs : List α)
    (bs : Nat → List α) :
    ((List.range n).flatMap
      (xs.foldl (fun bs y => update bs (idx y) (y :: bs (idx y))) bs)).Perm
      (xs ++ (List.range n).flatMap bs) := by
  induction xs generalizing bs with
  | nil => exact List.Perm.refl _
  | cons x xs ih =>
    rw [foldl_cons]
    refine (ih _).trans (((flatMap_push (hidx x)).append_left xs).trans ?_)
    exact perm_middle

theorem foldl_push_placed {idx : α → Nat} (xs : List α) (bs : Nat → List α)
    (hbs : ∀ i, ∀ x ∈ bs i, i = idx x) :
    ∀ i, ∀ x ∈ xs.foldl (fun bs y => update bs (idx y) (y :: bs (idx y))) bs i,
      i = idx x := by
  induction xs generalizing bs with
  | nil => exact hbs
  | cons y ys ih =>
    apply ih
    intro i x hx
    change x ∈ update bs (idx y) (y :: bs (idx y)) i at hx
    by_cases hi : i = idx y
    · subst hi
      rw [update_self, mem_cons] at hx
      rcases hx with rfl | hx
      · rfl
      · exact hbs _ x hx
    · rw [update_of_ne hi] at hx
      exact hbs i x hx

/-! ## The invariant -/

/-- A sound table: a power of two of buckets, at least 4; every element in the bucket of its
hash; the element count right. -/
structure Hash.Sound (f : HashFuncs α κ) (h : Hash α) : Prop where
  pow2 : ∃ n, 2 ≤ n ∧ h.bucketCnt = 2 ^ n
  placed : ∀ i, ∀ x ∈ h.buckets i, i = findBucket f h (f.key x)
  count : h.elemCnt = (hashElems h).length

theorem hashInit_sound : Hash.Sound f (hashInit : Hash α) :=
  ⟨⟨2, by omega, rfl⟩, nofun, rfl⟩

theorem turnOffLeast1Bit_bounds {k : Nat} (hk : 2 ^ k ≤ n) (h : isPowerOf2 n = false) :
    2 ^ k ≤ turnOffLeast1Bit n ∧ turnOffLeast1Bit n < n := by
  have hpos : n ≠ 0 := by have := Nat.two_pow_pos k; omega
  have hlog : 2 ^ k ≤ 2 ^ n.log2 :=
    Nat.pow_le_pow_right (by omega) ((Nat.le_log2 hpos).mpr hk)
  have hne : n ≠ 2 ^ n.log2 := by
    intro heq
    have hz := (Nat.and_sub_one_eq_zero_iff_isPowerOfTwo hpos).mpr ⟨n.log2, heq⟩
    simp [isPowerOf2, turnOffLeast1Bit, hz, hpos] at h
  have hle : 2 ^ n.log2 ≤ n := Nat.log2_self_le hpos
  -- `n - 1` has the highest bit of `n` too
  have hbit : (n - 1).testBit n.log2 = true := by
    apply Nat.testBit_of_two_pow_le_and_two_pow_add_one_gt (by omega)
    have := @Nat.lt_log2_self n
    omega
  have hand : (n &&& (n - 1)).testBit n.log2 = true := by
    rw [Nat.testBit_and, Nat.testBit_log2 hpos, hbit]
    rfl
  have hge := Nat.ge_two_pow_of_testBit hand
  have hle' : n &&& (n - 1) ≤ n - 1 := Nat.and_le_right
  unfold turnOffLeast1Bit
  omega

theorem roundToPowerOf2_pow {fuel k : Nat} (hk : 2 ^ k ≤ n) (hfuel : n ≤ fuel) :
    ∃ j, k ≤ j ∧ roundToPowerOf2 fuel n = 2 ^ j := by
  induction fuel generalizing n with
  | zero => have := Nat.two_pow_pos k; omega
  | succ fuel ih =>
    unfold roundToPowerOf2
    split
    · next hp =>
      simp only [isPowerOf2, turnOffLeast1Bit, Bool.and_eq_true, bne_iff_ne, ne_eq,
        beq_iff_eq] at hp
      obtain ⟨j, hj⟩ := (Nat.and_sub_one_eq_zero_iff_isPowerOfTwo hp.1).mp hp.2
      refine ⟨j, ?_, hj⟩
      rw [hj] at hk
      exact (Nat.pow_le_pow_iff_right (by omega)).mp hk
    · next hp =>
      obtain ⟨hlo, hhi⟩ := turnOffLeast1Bit_bounds hk (by simpa using hp)
      exact ih hlo (by omega)

theorem newBucketCnt_pow2 (elemCnt : Nat) : ∃ n, 2 ≤ n ∧ newBucketCnt elemCnt = 2 ^ n :=
  roundToPowerOf2_pow (by show 4 ≤ _; omega) (Nat.le_refl _)

theorem findBucket_lt (f : HashFuncs α κ) (h : Hash α) (k : κ) : findBucket f h k < h.bucketCnt :=
  and_pred_lt h.bucketCnt_pos

/-! ### How the operations change the elements -/

theorem hashElems_insertElem (hb : b < h.bucketCnt) :
    (hashElems (insertElem h b x)).Perm (x :: hashElems h) := flatMap_push hb

theorem perm_cons_eraseP {p : α → Bool} {l : List α} (h : l.find? p = some x) :
    l.Perm (x :: l.eraseP p) := by
  induction l with
  | nil => cases h
  | cons y ys ih =>
    by_cases hp : p y = true
    · rw [find?_cons_of_pos hp] at h
      cases h
      rw [eraseP_cons_of_pos hp]
    · rw [find?_cons_of_neg hp] at h
      rw [eraseP_cons_of_neg hp]
      exact ((ih h).cons y).trans (List.Perm.swap x y _)

theorem hashElems_removeElem {k : κ} (hb : b < h.bucketCnt)
    (hx : findElem f h b k = some x) :
    (hashElems h).Perm (x :: hashElems (removeElem f h b k)) := by
  have hbucket : (h.buckets b).Perm (x :: (h.buckets b).eraseP (f.same k)) := perm_cons_eraseP hx
  refine List.Perm.trans ?_ (flatMap_push hb)
  apply List.Perm.flatMap_left
  intro i _
  by_cases hi : i = b
  · subst hi
    simp only [removeElem, update_self]
    exact hbucket
  · simp only [removeElem, update_of_ne hi]
    exact List.Perm.refl _

theorem hashElems_rehash : (hashElems (rehash f alloc h)).Perm (hashElems h) := by
  unfold rehash
  split
  · exact List.Perm.refl _
  · split
    · have hfold := flatMap_foldl_push
        (fun x => f.hash (f.key x) &&& (newBucketCnt h.elemCnt - 1))
        (fun x => and_pred_lt (newBucketCnt_pos h.elemCnt)) (hashElems h) (fun _ => [])
      have hnil : (range (newBucketCnt h.elemCnt)).flatMap (fun _ => ([] : List α)) = [] :=
        flatMap_eq_nil_iff.mpr fun _ _ => rfl
      rw [hnil, append_nil] at hfold
      exact hfold
    · exact List.Perm.refl _

theorem rehash_elemCnt : (rehash f alloc h).elemCnt = h.elemCnt := by
  unfold rehash
  split
  · rfl
  · split <;> rfl

theorem rehash_bucketCnt :
    (rehash f alloc h).bucketCnt = if alloc then newBucketCnt h.elemCnt else h.bucketCnt := by
  unfold rehash
  split
  · next heq =>
    split
    · exact heq.symm
    · rfl
  · split <;> rfl

theorem rehash_placed (hmoves : newBucketCnt h.elemCnt ≠ h.bucketCnt)
    (halloc : alloc = true) :
    ∀ i, ∀ x ∈ (rehash f alloc h).buckets i, i = findBucket f (rehash f alloc h) (f.key x) := by
  unfold rehash
  rw [if_neg hmoves, if_pos halloc]
  exact foldl_push_placed (hashElems h) (fun _ => []) (fun _ _ hx => nomatch hx)

/-! ### How the operations keep the invariant -/

namespace Hash.Sound

theorem rehash (hs : Hash.Sound f h) {alloc : Bool} : Hash.Sound f (rehash f alloc h) := by
  refine ⟨?_, ?_, ?_⟩
  · rw [rehash_bucketCnt]
    split
    · exact newBucketCnt_pow2 _
    · exact hs.pow2
  · by_cases hmoves : newBucketCnt h.elemCnt ≠ h.bucketCnt ∧ alloc = true
    · exact rehash_placed hmoves.1 hmoves.2
    · -- the table stays as it is
      have hstays : Pintos.rehash f alloc h = h := by
        unfold Pintos.rehash
        split
        · rfl
        · next hne => exact if_neg fun halloc => hmoves ⟨hne, halloc⟩
      rw [hstays]
      exact hs.placed
  · rw [rehash_elemCnt, hs.count, hashElems_rehash.length_eq]

theorem insertElem (hs : Hash.Sound f h) {x : α} :
    Hash.Sound f (insertElem h (findBucket f h (f.key x)) x) := by
  refine ⟨hs.pow2, fun i y hy => ?_, ?_⟩
  · by_cases hi : i = findBucket f h (f.key x)
    · subst hi
      simp only [Pintos.insertElem, update_self, mem_cons] at hy
      rcases hy with rfl | hy
      · rfl
      · exact hs.placed _ y hy
    · simp only [Pintos.insertElem, update_of_ne hi] at hy
      exact hs.placed i y hy
  · rw [(hashElems_insertElem (findBucket_lt f h _)).length_eq, length_cons, ← hs.count]
    rfl

theorem removeElem (hs : Hash.Sound f h) {k : κ} {x : α}
    (hx : findElem f h (findBucket f h k) k = some x) :
    Hash.Sound f (removeElem f h (findBucket f h k) k) := by
  refine ⟨hs.pow2, fun i y hy => ?_, ?_⟩
  · refine hs.placed i y ?_
    by_cases hi : i = findBucket f h k
    · subst hi
      simp only [Pintos.removeElem, update_self] at hy
      exact mem_of_mem_eraseP hy
    · simpa only [Pintos.removeElem, update_of_ne hi] using hy
  · have hlen := (hashElems_removeElem (findBucket_lt f h k) hx).length_eq
    rw [length_cons, ← hs.count] at hlen
    show h.elemCnt - 1 = _
    omega

end Hash.Sound

/-! ## The table and the map -/

/-- The table is sound and stands for the map. -/
structure Hash.Refines (f : HashFuncs α κ) (hf : f.Lawful) (h : Hash α)
    (m : Finmap fun _ : f.KeyClass hf => α) : Prop where
  sound : Hash.Sound f h
  represents : Represents (fun x => f.classOf hf (f.key x)) (hashElems h) m

namespace Hash.Refines

variable {hf : f.Lawful} {m : Finmap fun _ : f.KeyClass hf => α}

section

variable (hr : Hash.Refines f hf h m)
include hr

/-- The search of one bucket is the lookup in the map: equal keys have equal hashes. -/
theorem hashFind_eq (k : κ) : hashFind f h k = m.lookup (f.classOf hf k) := by
  cases hfind : hashFind f h k with
  | some x =>
    have hclass := (f.same_iff hf).mp (find?_some hfind)
    exact ((hr.represents.lookup_iff _ x).mpr ⟨findElem_mem hfind, hclass⟩).symm
  | none =>
    refine (hr.represents.lookup_eq_none.mpr fun x hx hclass => ?_).symm
    obtain ⟨i, -, hxi⟩ := mem_hashElems.mp hx
    have hbucket : i = findBucket f h k := by
      rw [hr.sound.placed i x hxi, findBucket, findBucket,
        hf.hash_eq _ _ ((f.classOf_eq hf).mp hclass)]
    rw [hbucket] at hxi
    exact find?_eq_none.mp hfind x hxi ((f.same_iff hf).mpr hclass)

theorem rehash {alloc : Bool} : Hash.Refines f hf (rehash f alloc h) m :=
  ⟨hr.sound.rehash, hr.represents.perm hashElems_rehash.symm⟩

theorem insertElem {x : α} (hnew : m.lookup (f.classOf hf (f.key x)) = none) :
    Hash.Refines f hf (insertElem h (findBucket f h (f.key x)) x)
      (m.insert (f.classOf hf (f.key x)) x) :=
  ⟨hr.sound.insertElem,
    (hr.represents.cons hnew).perm (hashElems_insertElem (findBucket_lt f h _)).symm⟩

theorem removeElem {k : κ} {x : α} (hx : findElem f h (findBucket f h k) k = some x) :
    Hash.Refines f hf (removeElem f h (findBucket f h k) k) (m.erase (f.classOf hf k)) := by
  have hclass : f.classOf hf (f.key x) = f.classOf hf k :=
    (f.same_iff hf).mp (find?_some hx)
  refine ⟨hr.sound.removeElem hx, ?_⟩
  rw [← hclass]
  exact (hr.represents.perm (hashElems_removeElem (findBucket_lt f h k) hx)).tail

/-- One call: the same result, and the table stands for the map after the call. -/
theorem step (op : HashOp α κ) :
    (hashStep f h op).1 = (mapStep f hf m op).1 ∧
      Hash.Refines f hf (hashStep f h op).2 (mapStep f hf m op).2 := by
  cases op with
  | insert new alloc =>
    have hfind : findElem f h (findBucket f h (f.key new)) (f.key new) =
        m.lookup (f.classOf hf (f.key new)) := hr.hashFind_eq _
    simp only [hashStep, hashInsert, mapStep, hfind]
    refine ⟨trivial, Refines.rehash ?_⟩
    split
    · next hnone => exact hr.insertElem (Option.isNone_iff_eq_none.mp hnone)
    · exact hr
  | replace new alloc =>
    refine ⟨hr.hashFind_eq _, Refines.rehash ?_⟩
    split
    · next hsome =>
      obtain ⟨x, hx⟩ := Option.isSome_iff_exists.mp hsome
      -- taking the old element out first makes no difference to the map
      have herase : (m.erase (f.classOf hf (f.key new))).insert
          (f.classOf hf (f.key new)) new = m.insert (f.classOf hf (f.key new)) new := by
        apply ext_lookup
        intro c
        by_cases hc : c = f.classOf hf (f.key new)
        · rw [hc, lookup_insert, lookup_insert]
        · rw [lookup_insert_of_ne _ hc, lookup_insert_of_ne _ hc, lookup_erase_ne hc]
      show Hash.Refines f hf _ (m.insert _ new)
      rw [← herase]
      exact (hr.removeElem hx).insertElem (lookup_erase _ _)
    · next hnone =>
      have hfind : findElem f h (findBucket f h (f.key new)) (f.key new) =
          m.lookup (f.classOf hf (f.key new)) := hr.hashFind_eq _
      rw [hfind, Option.not_isSome_iff_eq_none] at hnone
      exact hr.insertElem hnone
  | find k => exact ⟨hr.hashFind_eq k, hr⟩
  | delete k alloc =>
    have hfind : findElem f h (findBucket f h k) k = m.lookup (f.classOf hf k) :=
      hr.hashFind_eq k
    simp only [hashStep, hashDelete, mapStep]
    split
    · next x hx => exact ⟨by rw [← hfind, hx], (hr.removeElem hx).rehash⟩
    · next hnone =>
      rw [hfind] at hnone
      refine ⟨hnone.symm, ?_⟩
      have herase : m.erase (f.classOf hf k) = m := by
        apply ext_lookup
        intro c
        by_cases hc : c = f.classOf hf k
        · rw [hc, lookup_erase, hnone]
        · rw [lookup_erase_ne hc]
      rw [herase]
      exact hr

theorem run (ops : List (HashOp α κ)) :
    (hashRun f h ops).1 = (mapRun f hf m ops).1 ∧
      Hash.Refines f hf (hashRun f h ops).2 (mapRun f hf m ops).2 := by
  induction ops generalizing h m with
  | nil => exact ⟨rfl, hr⟩
  | cons op ops ih =>
    obtain ⟨hres, hr'⟩ := hr.step op
    obtain ⟨hrest, hr''⟩ := ih hr'
    refine ⟨?_, hr''⟩
    simp only [hashRun, mapRun, hres, hrest]

end

end Hash.Refines

/-- **The hash table is a finite map.** After any sequence of calls on a new table, the calls
have returned what the map's operations return, looking up any key gives the map's element, the
elements are the map's, each in the bucket of its hash, `elem_cnt` counts them, and the number
of buckets is a power of two not below 4. -/
theorem hash_refines_finmap (f : HashFuncs α κ) (hf : f.Lawful) (ops : List (HashOp α κ)) :
    let h := (hashRun f hashInit ops).2
    let m := (mapRun f hf ∅ ops).2
    (hashRun f hashInit ops).1 = (mapRun f hf ∅ ops).1 ∧
      (∀ k, hashFind f h k = m.lookup (f.classOf hf k)) ∧
      (∀ x, x ∈ hashElems h ↔ m.lookup (f.classOf hf (f.key x)) = some x) ∧
      (∀ i, ∀ x ∈ h.buckets i, i = findBucket f h (f.key x)) ∧
      h.elemCnt = (hashElems h).length ∧ h.elemCnt = m.keys.card ∧
      ∃ n, 2 ≤ n ∧ h.bucketCnt = 2 ^ n := by
  intro h m
  have hinit : Hash.Refines f hf (hashInit : Hash α) ∅ := ⟨hashInit_sound, .empty⟩
  obtain ⟨hres, hr⟩ := hinit.run ops
  refine ⟨hres, hr.hashFind_eq, fun x => ?_, hr.sound.placed, hr.sound.count, ?_, hr.sound.pow2⟩
  · rw [hr.represents.lookup_iff, and_iff_left rfl]
  · rw [hr.represents.card_keys]
    exact hr.sound.count

/-- Numbers as their own keys, all with hash 0. -/
def numberFuncs : HashFuncs Nat Nat := ⟨id, fun _ => 0, fun a b => decide (a < b)⟩

theorem numberFuncs_lawful : numberFuncs.Lawful where
  irrefl a := by simp [numberFuncs]
  trans a b c := by
    simp only [numberFuncs, decide_eq_true_eq]
    omega
  equal_trans a b c := by
    simp only [HashFuncs.equal, numberFuncs, Bool.and_eq_true, Bool.not_eq_true',
      decide_eq_false_iff_not]
    omega
  hash_eq _ _ _ := rfl

/-- Insertions into one bucket, one of them of an element that is there, a deletion, a lookup. -/
theorem hash_refines_finmap_numbers :
    numberFuncs.Lawful ∧
      (hashRun numberFuncs hashInit
        [.insert 7 true, .insert 9 true, .insert 7 false, .delete 9 true, .find 9]).1 =
      (mapRun numberFuncs numberFuncs_lawful ∅
        [.insert 7 true, .insert 9 true, .insert 7 false, .delete 9 true, .find 9]).1 :=
  ⟨numberFuncs_lawful, (hash_refines_finmap numberFuncs numberFuncs_lawful _).1⟩

end Pintos
