import Pintos.Kernel.Hash
import Pintos.Kernel.List

/-!
# Hash tables in memory (`lib/kernel/hash.c`)

The buckets of a table are an array of linked lists. An iterator has a bucket and a pointer to an
element of it, which is the list's head at first, and `hash_next` compares that pointer with the tail of
the bucket. A bucket outside the array is `none`.
-/

namespace Pintos.HashLinks

open Lib List Links KernelList

variable {α : Type}

/-- `struct hash`. -/
structure Table (α : Type) where
  elemCnt : Nat
  bucketCnt : Nat
  buckets : Nat → KernelList α

/-- `struct hash_iterator`. -/
structure Iterator (α : Type) where
  bucket : Nat
  elem : Option α

/-- `&h->buckets[i]`. -/
def Table.bucket (t : Table α) (i : Nat) : Option (KernelList α) :=
  if i < t.bucketCnt then some (t.buckets i) else none

section Functions

variable [DecidableEq α]

/-- `hash_first`. -/
def hashFirst (t : Table α) : Option (Iterator α) := do
  let bucket ← t.bucket 0
  return ⟨0, some bucket.head⟩

/-- The loop of `hash_next`, at `elem` in a bucket. -/
def skipEmpty (l : Links α) (t : Table α) (bucket : Nat) (elem : α) : Option (Iterator α) := do
  let list ← t.bucket bucket
  if elem = list.tail then
    if t.bucketCnt ≤ bucket + 1 then return ⟨bucket + 1, none⟩
    else
      let next ← t.bucket (bucket + 1)
      let elem ← listBegin l next
      skipEmpty l t (bucket + 1) elem
  else return ⟨bucket, some elem⟩
termination_by t.bucketCnt - bucket

/-- `hash_next`: the iterator after it, whose `elem` is returned. -/
def hashNext (l : Links α) (t : Table α) (i : Iterator α) : Option (Iterator α) := do
  let elem ← i.elem
  let elem ← listNext l elem
  skipEmpty l t i.bucket elem

/-- `while (hash_next (&i))`: what it returns before the null pointer. -/
def visit (l : Links α) (t : Table α) : Nat → Iterator α → Option (List α)
  | 0, _ => none
  | fuel + 1, i => do
      let i ← hashNext l t i
      match i.elem with
      | none => return []
      | some e =>
        let rest ← visit l t fuel i
        return e :: rest

/-- The `while` loop of `hash_clear`; `called` has the elements that the destructor got. -/
def clearBucket (destructor : α → Links α → Links α) (bucket : KernelList α) :
    Nat → Links α → List α → Option (Links α × List α)
  | 0, _, _ => none
  | fuel + 1, l, called =>
    if listEmpty l bucket then some (l, called)
    else do
      let (e, l) ← listPopFront l bucket
      clearBucket destructor bucket fuel (destructor e l) (called ++ [e])

/-- The `for` loop of `hash_clear`, with a destructor. -/
def clearLoop (destructor : α → Links α → Links α) (fuel : Nat) (t : Table α) :
    List Nat → Links α → List α → Option (Links α × List α)
  | [], l, called => some (l, called)
  | i :: is, l, called => do
      let bucket ← t.bucket i
      let (l, called) ← clearBucket destructor bucket fuel l called
      clearLoop destructor fuel t is (listInit l bucket) called

/-- `hash_clear`, with a destructor. -/
def hashClear (destructor : α → Links α → Links α) (fuel : Nat) (l : Links α) (t : Table α) :
    Option (Links α × Table α × List α) := do
  let (l, called) ← clearLoop destructor fuel t (List.range t.bucketCnt) l []
  return (l, { t with elemCnt := 0 }, called)

end Functions

/-! ## Tables in memory -/

/-- The lists of the table have the elements of the buckets. -/
structure Represents (l : Links α) (t : Table α) (h : Hash α) : Prop where
  bucketCnt : t.bucketCnt = h.bucketCnt
  elemCnt : t.elemCnt = h.elemCnt
  holds : Holds l (fun i : Fin t.bucketCnt => t.buckets i) fun i => h.buckets i

/-- The iterator is at the element in front of those that are left. -/
structure At (t : Table α) (h : Hash α) (i : Iterator α) (a : HashIterator α) : Prop where
  bucket : i.bucket = a.bucket
  bound : i.bucket < t.bucketCnt
  elem : ∃ A p, h.buckets i.bucket = A ++ a.rest ∧ i.elem = some p ∧
    ∃ X, (t.buckets i.bucket).head :: A = X ++ [p]

section Iterate

variable {l : Links α} {t : Table α} {h : Hash α} {i : Iterator α} {a : HashIterator α}

theorem Represents.isList (hr : Represents l t h) {k : Nat} (hk : k < t.bucketCnt) :
    IsList l (t.buckets k) (h.buckets k) := hr.holds.isList ⟨k, hk⟩

theorem Represents.nodup (hr : Represents l t h) : (hashElems h).Nodup := by
  unfold hashElems
  rw [nodup_flatMap]
  refine ⟨fun k hk => ?_, ?_⟩
  · rw [mem_range, ← hr.bucketCnt] at hk
    have hnd := (hr.isList hk).nodup
    exact (nodup_append.mp (nodup_cons.mp hnd).2).1
  · refine nodup_range.imp_of_mem fun {j k} hj hk hne => ?_
    rw [mem_range, ← hr.bucketCnt] at hj hk
    intro x hxj hxk
    have heq := @hr.holds.apart ⟨j, hj⟩ ⟨k, hk⟩ x (by simp [nodes, hxj])
      (by simp [nodes, hxk])
    exact hne (congrArg Fin.val heq)

theorem Table.bucket_eq {k : Nat} (hk : k < t.bucketCnt) : t.bucket k = some (t.buckets k) := if_pos hk

theorem hashFirst_at (hr : Represents l t h) :
    ∃ i, hashFirst t = some i ∧ At t h i (Pintos.hashFirst h) := by
  have hpos : 0 < t.bucketCnt := hr.bucketCnt ▸ h.bucketCnt_pos
  exact ⟨⟨0, some (t.buckets 0).head⟩, by simp [hashFirst, Table.bucket_eq hpos], rfl, hpos,
    [], _, rfl, rfl, [], rfl⟩

variable [DecidableEq α]

theorem skipEmpty_refines (hr : Represents l t h) (a : HashIterator α) (hbound : a.bucket < t.bucketCnt)
    (hrest : ∃ A, h.buckets a.bucket = A ++ a.rest) :
    ∃ i', skipEmpty l t a.bucket ((t.buckets a.bucket).place a.rest) = some i' ∧
      match Pintos.hashNext h a with
      | none => i'.elem = none
      | some (x, a') => i'.elem = some x ∧ At t h i' a' := by
  fun_induction Pintos.hashNext h a with
  | case1 a x xs hx =>
    obtain ⟨A, hA⟩ := hrest
    have hlist := hr.isList hbound
    rw [hA, hx] at hlist
    have hne : x ≠ (t.buckets a.bucket).tail := hlist.place_eq_tail.not.mpr (by simp)
    refine ⟨⟨a.bucket, some x⟩, ?_, rfl, rfl, hbound, A ++ [x], x, ?_, rfl,
      (t.buckets a.bucket).head :: A, rfl⟩
    · rw [skipEmpty, hx]
      simp [Table.bucket_eq hbound, hne]
    · simp [hA, hx]
  | case2 a hx hend =>
    refine ⟨⟨a.bucket + 1, none⟩, ?_, rfl⟩
    rw [← hr.bucketCnt] at hend
    rw [skipEmpty, hx]
    simp [Table.bucket_eq hbound, hend]
  | case3 a hx hmore ih =>
    -- the next bucket from its beginning on
    rw [← hr.bucketCnt] at hmore
    have hnext : a.bucket + 1 < t.bucketCnt := Nat.lt_of_not_le hmore
    obtain ⟨i', hi', hres⟩ := ih hnext ⟨[], rfl⟩
    refine ⟨i', ?_, hres⟩
    have hbegin := (hr.isList hnext).begin_place
    rw [skipEmpty, hx]
    simp [Table.bucket_eq hbound, Table.bucket_eq hnext, hmore, hbegin, hi']

theorem next_refines (hr : Represents l t h) (ha : At t h i a) :
    ∃ i', hashNext l t i = some i' ∧
      match Pintos.hashNext h a with
      | none => i'.elem = none
      | some (x, a') => i'.elem = some x ∧ At t h i' a' := by
  obtain ⟨A, p, hA, hp, hX⟩ := ha.elem
  have hlist := hr.isList ha.bound
  rw [hA] at hlist
  have hj := hlist.joined ⟨hX, List.head?_eq_some_iff.mp (place_eq _ a.rest)⟩
  have hbucket := ha.bucket
  have hbound := ha.bound
  rw [hbucket] at hbound hA
  obtain ⟨i', hi', hres⟩ := skipEmpty_refines hr a hbound ⟨A, hA⟩
  rw [hbucket] at hj
  exact ⟨i', by simp [hashNext, hp, listNext_eq hj.1, hbucket, hi'], hres⟩

theorem visit_eq (hr : Represents l t h) (ha : At t h i a) {fuel : Nat}
    (hfuel : (a.remaining h).length < fuel) : visit l t fuel i = some (a.remaining h) := by
  induction fuel generalizing i a with
  | zero => cases hfuel
  | succ fuel ih =>
    obtain ⟨i', hi', hres⟩ := next_refines hr ha
    cases hn : Pintos.hashNext h a with
    | none =>
      rw [hn] at hres
      have hres : i'.elem = none := hres
      rw [hashNext_none hn]
      simp [visit, hi', hres]
    | some r =>
      obtain ⟨x, a'⟩ := r
      rw [hn] at hres
      obtain ⟨helem, hat⟩ : i'.elem = some x ∧ At t h i' a' := hres
      have hrem := hashNext_some hn
      rw [hrem] at hfuel ⊢
      have hrest := ih hat (Nat.lt_of_succ_lt_succ hfuel)
      simp [visit, hi', helem, hrest]

end Iterate

/-! ## Clearing a table -/

section Clear

variable [DecidableEq α] {l : Links α} {t : Table α} {h : Hash α} {destructor : α → Links α → Links α}

theorem listInit_isList (l : Links α) (list : KernelList α) (hne : list.head ≠ list.tail) :
    IsList (listInit l list) list [] ∧ l.SameOff (listInit l list) (· ∈ list.nodes []) := by
  unfold listInit
  refine ⟨⟨isChain_cons_cons.mpr ⟨⟨?_, ?_⟩, isChain_singleton _⟩, ?_, ?_⟩, fun x hx => ?_⟩
  · rw [setNext_ne _ _ hne, setPrev_next, setNext_self]
  · rw [setNext_prev, setPrev_self]
  · rw [setNext_prev, setPrev_ne _ _ hne, setNext_prev, setPrev_self]
  · rw [setNext_self]
  · simp only [nodes, nil_append, mem_cons, not_mem_nil, or_false, not_or] at hx
    refine ⟨?_, ?_⟩
    · rw [setNext_ne _ _ hx.2, setPrev_next, setNext_ne _ _ hx.1, setPrev_next]
    · rw [setNext_prev, setPrev_ne _ _ hx.2, setNext_prev, setPrev_ne _ _ hx.1]

theorem clearBucket_ok {bucket : KernelList α} {xs called : List α} {fuel : Nat}
    (hd : ∀ e l, Links.SameOff l (destructor e l) (· = e)) (hlist : IsList l bucket xs)
    (hfuel : xs.length < fuel) :
    ∃ l', clearBucket destructor bucket fuel l called = some (l', called ++ xs) ∧
      IsList l' bucket [] ∧ l.SameOff l' (· ∈ bucket.nodes xs) := by
  induction xs generalizing l called fuel with
  | nil =>
    cases fuel with
    | zero => cases hfuel
    | succ fuel =>
      exact ⟨l, by simp [clearBucket, hlist.empty_iff.mpr rfl], hlist, .refl l _⟩
  | cons x xs ih =>
    cases fuel with
    | zero => cases hfuel
    | succ fuel =>
      obtain ⟨l₁, hl₁, hrest, hsame⟩ := hlist.popFront
      -- the destructor does not change the links of the others
      have hx : x ∉ bucket.nodes xs := by
        have hnd := hlist.nodup
        simp only [nodes, cons_append, nodup_cons, mem_cons, mem_append, not_or] at hnd ⊢
        exact ⟨fun heq => hnd.1.1 heq.symm, hnd.2.1⟩
      have hrest' : IsList (destructor x l₁) bucket xs :=
        hrest.congr fun y hy => hd x l₁ y fun heq => hx (heq ▸ hy)
      obtain ⟨l', hl', hempty, hsame'⟩ :=
        @ih (destructor x l₁) (called ++ [x]) fuel hrest' (Nat.lt_of_succ_lt_succ hfuel)
      have hnot : ¬ listEmpty l bucket = true := hlist.empty_iff.not.mpr (by simp)
      refine ⟨l', by simp [clearBucket, hnot, hl₁, hl'], hempty, ?_⟩
      refine hsame.trans (((hd x l₁).mono ?_).trans (hsame'.mono ?_))
      · rintro y rfl
        simp [nodes]
      · intro y hy
        simp only [nodes, mem_cons, mem_append] at hy ⊢
        tauto

theorem clearLoop_ok (hd : ∀ e l, Links.SameOff l (destructor e l) (· = e)) {fuel n k : Nat}
    {called : List α} (hk : k + n = t.bucketCnt)
    (hholds : Holds l (fun i : Fin t.bucketCnt => t.buckets i)
      fun i => if i.val < k then [] else h.buckets i)
    (hfuel : ∀ i < t.bucketCnt, (h.buckets i).length < fuel) :
    ∃ l', clearLoop destructor fuel t (List.range' k n) l called =
        some (l', called ++ (List.range' k n).flatMap h.buckets) ∧
      Holds l' (fun i : Fin t.bucketCnt => t.buckets i) fun _ => [] := by
  induction n generalizing k l called with
  | zero =>
    refine ⟨l, by simp [clearLoop], ?_⟩
    have hall : (fun i : Fin t.bucketCnt => if i.val < k then [] else h.buckets i) = fun _ => [] := by
      funext i
      rw [if_pos (by have := i.isLt; omega)]
    rw [← hall]
    exact hholds
  | succ n ih =>
    have hlt : k < t.bucketCnt := by omega
    have hlist := hholds.isList ⟨k, hlt⟩
    simp only [Nat.lt_irrefl, if_false] at hlist
    obtain ⟨l₁, hl₁, hempty, hsame⟩ :=
      @clearBucket_ok α _ l destructor _ _ called _ hd hlist (hfuel k hlt)
    have hne : (t.buckets k).head ≠ (t.buckets k).tail := by
      have hnd := hempty.nodup
      simpa [nodes] using hnd
    obtain ⟨hinit, hsame'⟩ := listInit_isList l₁ (t.buckets k) hne
    have hsame₂ : l.SameOff (listInit l₁ (t.buckets k))
        (· ∈ (t.buckets k).nodes (h.buckets k)) := by
      refine hsame.trans (hsame'.mono fun x hx => ?_)
      simp only [nodes, mem_cons, mem_append, not_mem_nil, or_false] at hx ⊢
      tauto
    have hnext := (hholds.rearrange (i := ⟨k, hlt⟩) rfl hinit (nil_subset _) (by
      simp only [Nat.lt_irrefl, if_false]
      exact hsame₂)).1
    have hfun : Function.update (fun i : Fin t.bucketCnt => if i.val < k then [] else h.buckets i)
        ⟨k, hlt⟩ [] = fun i : Fin t.bucketCnt => if i.val < k + 1 then [] else h.buckets i := by
      funext i
      by_cases hi : i = ⟨k, hlt⟩
      · subst hi
        rw [Function.update_self, if_pos (Nat.lt_succ_self k)]
      · have hi' : i.val ≠ k := fun heq => hi (Fin.ext heq)
        rw [Function.update_of_ne hi]
        by_cases hik : i.val < k
        · rw [if_pos hik, if_pos (by omega)]
        · rw [if_neg hik, if_neg (by omega)]
    rw [hfun] at hnext
    obtain ⟨l', hl', hres⟩ :=
      @ih (listInit l₁ (t.buckets k)) (k + 1) (called ++ h.buckets k) (by omega) hnext
    refine ⟨l', ?_, hres⟩
    simp [clearLoop, List.range'_succ, Table.bucket_eq hlt, hl₁, hl']

end Clear

/-- **Each element once.** In a table of any distribution `hash_first` and `hash_next` return each
element once, and then a null pointer. `hash_clear` calls its destructor once for each element, and
leaves an empty table. -/
theorem hash_visits_once [DecidableEq α] {l : Links α} {t : Table α} {h : Hash α}
    (hr : Represents l t h) {destructor : α → Links α → Links α}
    (hd : ∀ e l, Links.SameOff l (destructor e l) (· = e)) {fuel : Nat}
    (hfuel : (hashElems h).length < fuel) :
    (hashElems h).Nodup ∧ (∀ x, x ∈ hashElems h ↔ ∃ i < t.bucketCnt, x ∈ h.buckets i) ∧
      (∃ i, hashFirst t = some i ∧ visit l t fuel i = some (hashElems h)) ∧
      ∃ l' t', hashClear destructor fuel l t = some (l', t', hashElems h) ∧
        Represents l' t' ⟨0, h.bucketCnt, fun _ => [], h.bucketCnt_pos⟩ := by
  refine ⟨hr.nodup, fun x => ?_, ?_, ?_⟩
  · rw [hr.bucketCnt]
    exact mem_hashElems
  · obtain ⟨i, hi, hat⟩ := hashFirst_at hr
    have hvisit := visit_eq hr hat (by rw [remaining_hashFirst]; exact hfuel)
    rw [remaining_hashFirst] at hvisit
    exact ⟨i, hi, hvisit⟩
  · have hlen : ∀ i < t.bucketCnt, (h.buckets i).length < fuel := by
      intro i hi
      rw [hr.bucketCnt] at hi
      refine Nat.lt_of_le_of_lt ?_ hfuel
      obtain ⟨A, B, hAB⟩ := append_of_mem (mem_range.mpr hi)
      rw [hashElems, hAB, flatMap_append, flatMap_cons, length_append, length_append]
      omega
    have hstart : Holds l (fun i : Fin t.bucketCnt => t.buckets i)
        fun i => if i.val < 0 then [] else h.buckets i := by
      simpa using hr.holds
    obtain ⟨l', hl', hholds⟩ := @clearLoop_ok α _ l t h destructor hd fuel t.bucketCnt 0 []
      (Nat.zero_add _) hstart hlen
    rw [← range_eq_range', nil_append] at hl'
    refine ⟨l', { t with elemCnt := 0 }, ?_, hr.bucketCnt, rfl, hholds⟩
    have helems : (List.range t.bucketCnt).flatMap h.buckets = hashElems h := by
      rw [hr.bucketCnt]
      rfl
    rw [helems] at hl'
    simp [hashClear, hl']

/-- A table of four buckets of which the first, the third and the last are empty. -/
def gapTable : Table Nat := ⟨2, 4, fun i => ⟨2 * i, 2 * i + 1⟩⟩

def gapHash : Hash Nat := ⟨2, 4, fun i => if i = 1 then [10, 11] else [], (by decide : 1 ≤ 4)⟩

def gapLinks : Links Nat where
  prev
    | 1 => some 0
    | 10 => some 2
    | 11 => some 10
    | 3 => some 11
    | 5 => some 4
    | 7 => some 6
    | _ => none
  next
    | 0 => some 1
    | 2 => some 10
    | 10 => some 11
    | 11 => some 3
    | 4 => some 5
    | 6 => some 7
    | _ => none

theorem gap_represents : Represents gapLinks gapTable gapHash := by
  have hcases : ∀ i : Fin gapTable.bucketCnt, i.val = 0 ∨ i.val = 1 ∨ i.val = 2 ∨ i.val = 3 := by
    decide
  refine ⟨rfl, rfl, fun i => ?_, fun {i j x} hi hj => Fin.ext ?_⟩
  · simp only [gapTable, gapHash]
    rcases hcases i with hi | hi | hi | hi <;> rw [hi] <;>
      exact ⟨by simp [Links.Path, Links.Joined, nodes, gapLinks], rfl, rfl⟩
  · simp only [gapTable, gapHash, nodes] at hi hj
    rcases hcases i with h₁ | h₁ | h₁ | h₁ <;> rcases hcases j with h₂ | h₂ | h₂ | h₂ <;>
      rw [h₁] at hi ⊢ <;> rw [h₂] at hj ⊢ <;> simp at hi hj <;> omega

/-- The two elements are found behind an empty bucket. -/
theorem hash_visits_once_gaps :
    (hashElems gapHash).Nodup ∧
      (∀ x, x ∈ hashElems gapHash ↔ ∃ i < gapTable.bucketCnt, x ∈ gapHash.buckets i) ∧
      (∃ i, hashFirst gapTable = some i ∧ visit gapLinks gapTable 3 i = some (hashElems gapHash)) ∧
      ∃ l' t', hashClear (fun e l => l.setNext e none) 3 gapLinks gapTable =
          some (l', t', hashElems gapHash) ∧
        Represents l' t' ⟨0, 4, fun _ => [], gapHash.bucketCnt_pos⟩ :=
  hash_visits_once gap_represents
    (fun e l x hx => ⟨setNext_ne l none hx, rfl⟩) (by decide)

end Pintos.HashLinks
